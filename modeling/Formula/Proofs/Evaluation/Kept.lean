import Formula.Proofs.Evaluation.Calls

/-!
# What all of evaluation keeps

A property of trees that rewrites keep (`Expr.Kept`) and that every variable has is kept by evaluation, once
all values of the context and the bodies of all its functions have it (`Context.Holds`). What evaluation
calls keeps it too: built-in functions, as they compute numbers and put results in the places of elements
(`Expr.Inherited.apply`), and expression functions, whose bodies are evaluated in the scope of the call, one
level of calls at a time (`holds_runBody`). So it holds of whatever tree evaluation reaches, within
its limit or not, and of the context that is left (`holds_evaluate`).
-/

set_option autoImplicit false

namespace Formula

open Formula.Expr

/-! ## Built-in functions -/

namespace Builtin

theorem length_applyEach (b : Builtin) (es : List Expr) : (b.applyEach es).length = es.length := by
  induction es with
  | nil => rfl
  | cons e es ih => rw [applyEach, List.length_cons, List.length_cons, ih]

end Builtin

namespace Expr.Inherited

variable {P : Expr → Prop}

theorem onNumbers (hP : Inherited P) (b : Builtin) (args : List Expr) : P (b.onNumbers args) := by
  unfold Builtin.onNumbers
  split
  · exact hP.ofFloat _
  · exact hP.undefined

mutual

theorem applyOne (hP : Inherited P) (b : Builtin) : ∀ {e : Expr}, P e → P (b.applyOne e)
  | .collection kind es, h => by
    unfold Builtin.applyOne
    split
    · exact hP.collection h (b.length_applyEach es) (applyEach hP b (hP.elements h))
    · exact applyElements hP b (hP.elements h)
  | .number _, _ | .constant _, _ | .variable _, _ | .parens _, _ | .unary .., _ | .binary .., _
  | .assign .., _ | .call .., _ => by simpa only [Builtin.applyOne] using hP.onNumbers b _

theorem applyEach (hP : Inherited P) (b : Builtin) : ∀ {es : List Expr}, (∀ e ∈ es, P e) →
    ∀ e ∈ b.applyEach es, P e
  | [], _ => fun e he => by cases he
  | e :: es, h => by
    rw [List.forall_mem_cons] at h
    rw [Builtin.applyEach, List.forall_mem_cons]
    exact ⟨applyOne hP b h.1, applyEach hP b h.2⟩

theorem applyElements (hP : Inherited P) (b : Builtin) : ∀ {es : List Expr}, (∀ e ∈ es, P e) →
    P (b.applyElements es)
  | [], _ => hP.undefined
  | [e], h => applyOne hP b (h e List.mem_cons_self)
  | _ :: _ :: _, _ => hP.onNumbers b _

end

/-- Built-in functions keep the property. -/
theorem apply (hP : Inherited P) (b : Builtin) {args : List Expr} (h : ∀ e ∈ args, P e) :
    P (b.apply args) := by
  unfold Builtin.apply
  split
  · exact hP.applyOne b (h _ List.mem_cons_self)
  · exact hP.onNumbers b _

end Expr.Inherited

/-! ## Contexts -/

/-- The function is built in, or an expression with the property. -/
def Function.Holds (P : Expr → Prop) : Function → Prop
  | .builtin _ => True
  | .host .. => False
  | .expression _ body => P body

namespace Context

/-- All values and the bodies of all functions have the property, and no function is the host's. -/
structure Holds (P : Expr → Prop) (c : Context) : Prop where
  values : ∀ name v, c.values.get? name = some v → P v
  functions : ∀ name f, c.functions.get? name = some f → f.Holds P

namespace Holds

variable {P : Expr → Prop} {c : Context}

theorem bindVariable (hc : c.Holds P) (name : String) {v : Expr} (hv : P v) :
    (c.bindVariable name v).Holds P where
  values := values_bindVariable hc.values name hv
  functions := hc.functions

theorem bindFunction (hc : c.Holds P) (name : String) {f : Function} (hf : f.Holds P) :
    (c.bindFunction name f).Holds P where
  values := hc.values
  functions other g hg := by
    obtain ⟨-, rfl⟩ | hg := Table.get?_insert_eq_some hg
    · exact hf
    · exact hc.functions other g hg

/-- The scope of a call binds the parameters to arguments. -/
theorem callScope (hc : c.Holds P) (parameters : List String) {args : List Expr} (h : ∀ a ∈ args, P a) :
    (c.callScope parameters args).Holds P := by
  refine List.foldlRecOn (parameters.zip args) _ (motive := Context.Holds P)
    ⟨hc.values, hc.functions⟩ fun d hd p hp => ?_
  exact hd.bindVariable p.1 (h p.2 (List.of_mem_zip hp).2)

end Holds

theorem holds_withBuiltins {P : Expr → Prop} : withBuiltins.Holds P :=
  List.foldlRecOn Builtin.all _ (motive := Context.Holds P)
    ⟨fun _ _ h => (by cases h), fun _ _ h => (by cases h)⟩
    fun _ hc b _ => hc.bindFunction b.name (f := .builtin b) trivial

end Context

/-! ## Calls and runs -/

/-- Calls in contexts with the property, of arguments with the property, keep it. -/
def Invoke.Keeps (P : Expr → Prop) (invoke : Invoke) : Prop :=
  ∀ (name : String) (args : List Expr) (c : Context), (∀ a ∈ args, P a) → c.Holds P →
    P (invoke name args c).1 ∧ (invoke name args c).2.Holds P

section
variable {P : Expr → Prop} (hP : Kept P) (hvariable : ∀ name, P (.variable name))
include hP hvariable

/-- A rewrite keeps the property, of the tree and of the context. -/
theorem Invoke.Keeps.step {invoke : Invoke} (hinvoke : invoke.Keeps P) {e e' : Expr} {c c' : Context}
    (he : P e) (hc : c.Holds P) (h : evaluateStep? invoke e c = some (e', c')) : P e' ∧ c'.Holds P := by
  refine (hP.atPlace (fun {r r'} hr hredex => ?_) (atPlace_of_step h) he).symm
  have hr' : P r' := hP.redex (fun name _ => c.lookup_of_values hc.values (fun _ => hvariable name)
    hP.undefined) (fun name args hargs => (hinvoke name args c (hP.args hargs) hc).1) hredex hr
  refine ⟨?_, hr'⟩
  cases hredex with
  | constant | «variable» | parens | unary | binary => exact hc
  | assign target => exact hc.bindVariable target hr'
  | call name args => exact (hinvoke name args c (hP.args hr) hc).2

/-- What a run reaches has the property, and the context that it leaves. -/
theorem Invoke.Keeps.evaluateWith {invoke : Invoke} (hinvoke : invoke.Keeps P) {e : Expr} {c : Context}
    (he : P e) (hc : c.Holds P) :
    P (reached (e.evaluateWith invoke c).1) ∧ (e.evaluateWith invoke c).2.Holds P := by
  have hstep : ∀ (a b : Expr) (s t : Context), P a ∧ s.Holds P →
      evaluateStep? invoke a s = some (b, t) → P b ∧ t.Holds P :=
    fun _ _ _ _ h hab => hinvoke.step hP hvariable h.1 h.2 hab
  obtain ⟨_, htree, -⟩ : ∃ d : Context, P (reached (e.evaluateWith invoke c).1) ∧ d.Holds P :=
    reached_invariant (I := fun e c => P e ∧ Context.Holds P c) hstep ⟨he, hc⟩
  obtain ⟨_, -, hstate⟩ : ∃ b, P b ∧ (e.evaluateWith invoke c).2.Holds P :=
    (settle_invariant (I := fun e c => P e ∧ Context.Holds P c) hstep ⟨he, hc⟩).1
  exact ⟨htree, hstate⟩

omit hvariable in
/-- Calls keep the property when the bodies of expression functions are evaluated to trees with it. -/
theorem keeps_invokeWith {runBody : Expr → Context → Expr}
    (hrun : ∀ body scope, P body → scope.Holds P → P (runBody body scope)) (hostDepth : Nat) :
    Invoke.Keeps P (Context.invokeWith runBody hostDepth) := by
  intro name args c hargs hc
  cases hostDepth with
  | zero => exact ⟨hP.undefined, hc⟩
  | succ hostDepth =>
    unfold Context.invokeWith
    split
    · exact ⟨hP.undefined, hc⟩
    · next f hf =>
      have hholds := hc.functions name f hf
      unfold Function.invoke
      split
      · cases f with
        | builtin b => exact ⟨hP.apply b hargs, hc⟩
        | host => exact hholds.elim
        | expression parameters body => exact ⟨hrun body _ hholds (hc.callScope parameters hargs), hc⟩
      · exact ⟨hP.undefined, hc⟩

/-- Bodies are evaluated to trees with the property, however many levels of calls are left. -/
theorem holds_runBody (levels : Nat) {body : Expr} {scope : Context} (hbody : P body)
    (hscope : scope.Holds P) : P (Context.runBody levels body scope) := by
  induction levels generalizing body scope with
  | zero => exact hP.undefined
  | succ levels ih =>
    have hrun := (keeps_invokeWith hP (fun _ _ => ih) maxHostDepth).evaluateWith hP hvariable
      hbody hscope
    unfold Context.runBody
    split
    · next e he =>
      rw [he] at hrun
      exact hrun.1
    · exact hP.undefined

theorem keeps_invoke : Invoke.Keeps P Context.invoke := fun name args c =>
  keeps_invokeWith hP (fun _ _ => holds_runBody hP hvariable _) maxHostDepth name args c

/-- What evaluation reaches has the property, and so have the values and bodies of the context it leaves. -/
theorem holds_evaluate {e : Expr} {c : Context} (he : P e) (hc : c.Holds P) :
    P (reached (e.evaluate c).1) ∧ (e.evaluate c).2.Holds P :=
  (keeps_invoke hP hvariable).evaluateWith hP hvariable he hc

theorem holds_evaluateStep {e : Expr} {c : Context} (he : P e) (hc : c.Holds P) :
    P (e.evaluateStep c).1 ∧ (e.evaluateStep c).2.Holds P := by
  unfold evaluateStep
  cases h : evaluateStep? Context.invoke e c with
  | none => exact ⟨he, hc⟩
  | some next => exact (keeps_invoke hP hvariable).step hP hvariable he hc h

end

/-! ## Simplification -/

section
variable {P : Expr → Prop} (hP : Kept P)
include hP

theorem holds_simplifyStep {e : Expr} (he : P e) : P e.simplifyStep := by
  unfold simplifyStep
  cases h : simplifyStep? e with
  | none => exact he
  | some e' => exact hP.simplifyStep he h

/-- What simplification reaches has the property. -/
theorem holds_simplify {e : Expr} (he : P e) : P (reached e.simplify) := by
  have hstep : ∀ (a b : Expr) (s t : Unit), P a → a.simplifyStep?.map (·, ()) = some (b, t) → P b := by
    intro a b _ _ ha hab
    obtain ⟨b', hb, hpair⟩ := Option.map_eq_some_iff.1 hab
    cases hpair
    exact hP.simplifyStep ha hb
  obtain ⟨_, h⟩ : ∃ _ : Unit, P (reached e.simplify) :=
    reached_invariant (I := fun e (_ : Unit) => P e) hstep he
  exact h

end

end Formula
