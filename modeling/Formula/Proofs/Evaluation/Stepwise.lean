import Formula.CommandLine
import Formula.Proofs.Evaluation.Effects

/-!
# Evaluation one rewrite at a time

Evaluation can be watched rewrite by rewrite, as the command line prints it. What is printed tells the
result of the evaluation, also when that gives up at its limit (`tells_rewrites`).

An evaluation that gives up leaves the context of one rewrite more than it was allowed
(`evaluate_exhausted`): to see whether the tree has settled it makes that rewrite, and only the tree is
thrown away. With local functions the bindings are those of the rewrites that were allowed exactly when
that one carries out no assignment of a new value. So the limit does not bound the effects:
`exhausted_assigns` is an assignment beyond it.
-/

set_option autoImplicit false

namespace Formula

open CommandLine

namespace Expr

/-! ## Equality of trees -/

open Float.Model in
theorem sameNumber_self (x : Float) : sameNumber x x = true := by
  have key : x.toModel.unpack.beq x.toModel.unpack = true ∨ x.toModel.unpack.isNaN = true := by
    cases x.toModel.unpack with
    | notANumber => exact .inr rfl
    | zero => exact .inl rfl
    | infinity s => cases s <;> exact .inl rfl
    | finite s m e =>
      have hcompare : (compare e e).then (compare m m) = .eq := by
        rw [Std.compare_self, Std.compare_self]
        rfl
      left
      cases s with
      | positive =>
        show (some ((compare e e).then (compare m m)) == some .eq) = true
        rw [hcompare]
        rfl
      | negative =>
        show (some ((compare e e).then (compare m m)).swap == some .eq) = true
        rw [hcompare]
        rfl
  unfold sameNumber
  obtain h | h := key
  · rw [show (x == x) = true from h, Bool.true_or]
  · rw [show x.isNaN = true from h, Bool.and_self, Bool.or_true]

mutual

/-- A tree is the same as itself, also where numbers are NaN. -/
theorem same_self : ∀ e : Expr, same e e = true
  | .number x => sameNumber_self x
  | .constant _ | .variable _ => by simp [same]
  | .parens inner => same_self inner
  | .unary _ _ operand => by simp [same, same_self operand]
  | .binary left _ right => by simp [same, same_self left, same_self right]
  | .assign _ value => by simp [same, same_self value]
  | .call _ args => by simp [same, sameAll_self args]
  | .collection _ elements => by simp [same, sameAll_self elements]

theorem sameAll_self : ∀ es : List Expr, sameAll es es = true
  | [] => rfl
  | e :: es => by simp [sameAll, same_self e, sameAll_self es]

end

/-! ## What is printed -/

/-- The evaluation of a tree, watched for as many rewrites as the context allows: the trees after the first,
whether it settled, and the context that is left. -/
def watch (invoke : Invoke) (t : Expr) (c : Context) : List Expr × Bool × Context :=
  trace same (stepOrStay (evaluateStep? invoke)) c.maxIterations t c

theorem stepOrStay_simplify : stepOrStay (fun (e : Expr) (_ : Unit) => e.simplifyStep?.map (·, ())) =
    fun e u => (e.simplifyStep, u) := by
  funext e u
  unfold stepOrStay simplifyStep
  dsimp only
  cases e.simplifyStep? <;> rfl

/-- The printed rewrites of a simplification do not depend on the context but for its limit. -/
theorem rewrites_simplify (t : Expr) (c : Context) : rewrites true t c =
    (trace same (stepOrStay fun e (_ : Unit) => e.simplifyStep?.map (·, ())) c.maxIterations t ()).1 := by
  rw [stepOrStay_simplify]
  exact trace_stateless simplifyStep c.maxIterations t c ()

/-- **What is printed tells the result.** However functions are called, the rewrites of a tree, watched one
by one as often as the context allows, end with the tree that it evaluates to; and if evaluation gives up,
they are as many as its limit and end with the tree that the error shows. The command line prints these
rewrites. If all functions are built in or expressions, watching an evaluation that settles leaves the same
context. The same holds of simplification, with its own limit. -/
theorem tells_rewrites (t : Expr) (c : Context) :
    (∀ invoke, Tells t c.maxIterations (t.watch invoke c).1 (t.evaluateWith invoke c).1) ∧
      (rewrites false t c = (t.watch Context.invoke c).1 ∧
        Tells t c.maxIterations (rewrites false t c) (t.evaluate c).1) ∧
      (c.LocalFunctions → ∀ u c', t.evaluate c = (.ok u, c') →
        (t.watch Context.invoke c).2.2 = c') ∧
      Tells t defaultMaxIterations (rewrites true t { c with maxIterations := defaultMaxIterations })
        t.simplify := by
  refine ⟨fun invoke => tells_trace same_self _ t c, ⟨rfl, tells_trace same_self _ t c⟩, ?_, ?_⟩
  · intro hc u c' h
    exact trace_state (I := fun _ c => c.LocalFunctions) same_self
      (fun _ _ _ _ hc hs => ⟨same_of_local hc hs, local_of_step hc hs⟩) hc h
  · rw [rewrites_simplify]
    exact tells_trace same_self _ t ()

/-- The first rewrite of `x = 1 + 2` adds. -/
theorem step_assign_sum (c : Context) :
    evaluateStep? Context.invoke (assign "x" (.binary (.number 1) .add (.number 2))) c =
      some (assign "x" (.number 3), c) := by
  have hsum : evaluateStep? Context.invoke (.binary (.number 1) .add (.number 2)) c =
      some (.number 3, c) := step_numbers (by decide +kernel) (by decide +kernel) c
  rw [evaluateStep?, hsum]

/-- With two rewrites allowed, `x = 1 + 2` settles exactly at the limit. Whoever watches it does not see that
it has settled, but is left with the same context. -/
theorem tells_rewrites_limit :
    let c := { Context.withBuiltins with maxIterations := 2 }
    let d := c.bindVariable "x" (.number 3)
    let t := assign "x" (.binary (.number 1) .add (.number 2))
    c.LocalFunctions ∧ t.evaluate c = (.ok (.number 3), d) ∧ (t.watch Context.invoke c).2 = (false, d) := by
  intro c d t
  have hc : c.LocalFunctions := ground_withBuiltins.local 2
  have hstep : evaluateStep? Context.invoke t c = some (assign "x" (.number 3), c) :=
    step_assign_sum c
  have h : t.evaluate c = (.ok (.number 3), d) :=
    evaluate_of_evaluatesIn (SettlesIn.next hstep rfl (SettlesIn.next rfl rfl (.rest rfl)))
      (Nat.le_refl 2)
  have hwatch : (t.watch Context.invoke c).2.1 = false := by
    show (trace same (stepOrStay (evaluateStep? Context.invoke)) 2 t c).2.1 = false
    rw [trace, stepOrStay_of_some hstep]
    rfl
  exact ⟨hc, h, Prod.ext hwatch ((tells_rewrites t c).2.2.1 hc _ _ h)⟩

/-! ## Beyond the limit -/

theorem evaluateSteps_succ (n : Nat) (e : Expr) (c : Context) : evaluateSteps (n + 1) e c =
    (evaluateSteps n e c).1.evaluateStep (evaluateSteps n e c).2 := by
  induction n generalizing e c with
  | zero => rfl
  | succ n ih => exact ih (e.evaluateStep c).1 (e.evaluateStep c).2

theorem evaluateSteps_of_rewritesIn {n : Nat} {e v : Expr} {c d : Context}
    (h : RewritesIn same (evaluateStep? Context.invoke) n e c v d) : evaluateSteps n e c = (v, d) := by
  induction h with
  | here => rfl
  | next hs _ _ ih =>
    unfold evaluateSteps evaluateStep
    rw [hs]
    exact ih

/-- The next rewrite of the tree carries out the assignment of `v` to `x`. -/
def CarriesOut (e : Expr) (c : Context) (x : String) (v : Expr) : Prop :=
  ∃ e', evaluateStep? Context.invoke e c = some (e', c.bindVariable x v) ∧
    AtPlace (fun r r' => r = .assign x v ∧ r' = v) e e'

/-- With local functions a rewrite changes the context only by an assignment that it carries out. -/
theorem context_of_local {e e' : Expr} {c c' : Context} (hc : c.LocalFunctions)
    (h : evaluateStep? Context.invoke e c = some (e', c')) :
    c' = c ∨ ∃ x v, e.CarriesOut c x v ∧ c' = c.bindVariable x v := by
  obtain ⟨r, r', hr, hat⟩ := (atPlace_of_step h).exists_redex
  obtain hsame | ⟨x, rfl, rfl⟩ := hr.context (Context.quiet_invoke hc)
  · exact .inl hsame
  · exact .inr ⟨x, r', ⟨e', h, hat⟩, rfl⟩

/-- A rewrite with local functions changes no binding exactly when it carries out no assignment of a new
value. -/
theorem values_of_local_iff {e e' : Expr} {c c' : Context} (hc : c.LocalFunctions)
    (h : evaluateStep? Context.invoke e c = some (e', c')) :
    (∀ name, c'.values.get? name = c.values.get? name) ↔
      ∀ x v, e.CarriesOut c x v → c.values.get? x = some v := by
  constructor
  · rintro hvalues x v ⟨e'', hs, -⟩
    rw [h] at hs
    cases hs
    rw [← hvalues x]
    exact Table.get?_insert_self _ _ _
  · intro hnone name
    obtain rfl | ⟨x, v, hcarries, rfl⟩ := context_of_local hc h
    · rfl
    · by_cases hname : name = x
      · subst hname
        rw [hnone name v hcarries]
        exact Table.get?_insert_self _ _ _
      · exact Table.get?_insert_of_ne _ _ hname

theorem local_evaluateSteps {c : Context} (hc : c.LocalFunctions) (n : Nat) (e : Expr) :
    (evaluateSteps n e c).2.LocalFunctions := by
  intro name f hf
  rw [((evaluate_sameBut hc e).2.1 n).functions] at hf
  exact hc name f hf

/-- **An evaluation that gives up has made one rewrite too many.** The tree it shows is the one after as many
rewrites as its limit, but the context it leaves is the one after one rewrite more. If all functions are
built in or expressions, the variables are bound as after the rewrites that are allowed if and only if the
next rewrite carries out no assignment of a new value. -/
theorem evaluate_exhausted {t : Expr} {c c' : Context} {u : Unsettled Expr}
    (h : t.evaluate c = (.error u, c')) :
    u.limit = c.maxIterations ∧ (evaluateSteps u.limit t c).1 = u.last ∧
      c' = (evaluateSteps (u.limit + 1) t c).2 ∧
      (c.LocalFunctions →
        ((∀ name, c'.values.get? name = (evaluateSteps u.limit t c).2.values.get? name) ↔
          ∀ x v, u.last.CarriesOut (evaluateSteps u.limit t c).2 x v →
            (evaluateSteps u.limit t c).2.values.get? x = some v)) := by
  obtain ⟨hlimit, d, b, hr, hs, -⟩ := rewritesIn_of_settle_error h
  rw [← hlimit] at hr
  have hsteps := evaluateSteps_of_rewritesIn hr
  have hlocal := fun hc : c.LocalFunctions => local_evaluateSteps hc u.limit t
  rw [evaluateSteps_succ, hsteps]
  rw [hsteps] at hlocal
  refine ⟨hlimit, rfl, ?_, fun hc => values_of_local_iff (hlocal hc) hs⟩
  unfold evaluateStep
  rw [hs]
  rfl

/-- With one rewrite allowed, `(x = 1) + y` is given up at `1 + y`. The rewrite after that only looks `y` up,
so `x` is all that is bound. -/
theorem evaluate_exhausted_lookup :
    let c := { Context.withBuiltins.bindVariable "y" (.number 2) with maxIterations := 1 }
    let d := c.bindVariable "x" (.number 1)
    let t := binary (assign "x" (.number 1)) .add (.variable "y")
    let last := binary (.number 1) .add (.variable "y")
    c.LocalFunctions ∧ t.evaluate c = (.error ⟨1, last⟩, d) ∧ d = (evaluateSteps 2 t c).2 ∧
      ∀ x v, last.CarriesOut (evaluateSteps 1 t c).2 x v →
        (evaluateSteps 1 t c).2.values.get? x = some v := by
  intro c d t last
  have hc : c.LocalFunctions := ground_withBuiltins.local 1
  have h : t.evaluate c = (.error ⟨1, last⟩, d) := rfl
  obtain ⟨-, -, hstate, hiff⟩ := evaluate_exhausted h
  exact ⟨hc, h, hstate, (hiff hc).1 fun _ => rfl⟩

/-- The limit does not bound the effects: with one rewrite allowed, `x = 1 + 2` is given up at `x = 3`, and
`x` is bound all the same. -/
theorem exhausted_assigns :
    let c := { Context.withBuiltins with maxIterations := 1 }
    let d := c.bindVariable "x" (.number 3)
    let t := assign "x" (.binary (.number 1) .add (.number 2))
    t.evaluate c = (.error ⟨1, assign "x" (.number 3)⟩, d) ∧ d.values.get? "x" = some (.number 3) ∧
      (evaluateSteps 1 t c).2.values.get? "x" = none := by
  intro c d t
  have hstep : evaluateStep? Context.invoke t c = some (assign "x" (.number 3), c) :=
    step_assign_sum c
  refine ⟨?_, rfl, ?_⟩
  · show settle same (evaluateStep? Context.invoke) 1 1 t c = _
    rw [settle, hstep]
    rfl
  · rw [evaluateSteps, evaluateStep, hstep]
    rfl

end Expr

end Formula
