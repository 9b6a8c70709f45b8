import Formula.Proofs.Evaluation.Places
import Formula.Proofs.Evaluation.Runs

/-!
# Calls of local functions

A local function is built in or an expression: its call leaves the context as it is, and its result is
inert (`quiet_invoke`). Evaluation changes no function, so this holds all along a run, and with the
trees a run ends with it holds for the bodies of expression functions, one level of calls at a time.
-/

set_option autoImplicit false

namespace Formula

open Formula.Expr

/-- Whether a function is built in or an expression. -/
def Function.isLocal : Function → Bool
  | .host .. => false
  | .builtin _ | .expression .. => true

/-- Every function of the context is local. -/
def Context.LocalFunctions (c : Context) : Prop :=
  ∀ name f, c.functions.get? name = some f → f.isLocal

/-- Calls made in a context leave it as it is and answer with inert trees. -/
structure Invoke.Quiet (invoke : Invoke) (c : Context) : Prop where
  result : ∀ name args, (invoke name args c).1.inert
  context : ∀ name args, (invoke name args c).2 = c

/-! ## Built-in functions -/

namespace Builtin

theorem ground_onNumbers (b : Builtin) (args : List Expr) : (b.onNumbers args).ground := by
  unfold onNumbers
  split
  · exact ground_ofFloat _
  · rfl

mutual

theorem ground_applyOne (b : Builtin) : ∀ e : Expr, (b.applyOne e).ground
  | .collection kind es => by
    unfold applyOne
    split
    · exact allGround_applyEach b es
    · exact ground_applyElements b es
  | .number _ | .constant _ | .variable _ | .parens _ | .unary .. | .binary .. | .assign ..
  | .call .. => by simpa only [applyOne] using ground_onNumbers b _

theorem allGround_applyEach (b : Builtin) : ∀ es : List Expr, allGround (b.applyEach es)
  | [] => rfl
  | e :: es => by
    simp [applyEach, allGround, ground_applyOne b e, allGround_applyEach b es]

theorem ground_applyElements (b : Builtin) : ∀ es : List Expr, (b.applyElements es).ground
  | [] => rfl
  | [e] => ground_applyOne b e
  | _ :: _ :: _ => ground_onNumbers b _

end

/-- A built-in function answers with a ground tree, whatever its arguments are. -/
theorem ground_apply (b : Builtin) (args : List Expr) : (b.apply args).ground := by
  unfold apply
  split
  · exact ground_applyOne b _
  · exact ground_onNumbers b _

end Builtin

/-! ## Runs keep the functions -/

namespace Expr

/-- With quiet calls only assignments change the context. -/
theorem Redex.context {invoke : Invoke} {c c' : Context} (hq : invoke.Quiet c) {r r' : Expr}
    (h : Redex invoke c r r' c') :
    c' = c ∨ ∃ target, r = .assign target r' ∧ c' = c.bindVariable target r' := by
  cases h with
  | constant | «variable» | parens | unary | binary => exact .inl rfl
  | assign target => exact .inr ⟨target, rfl, rfl⟩
  | call name args => exact .inl (hq.context name args)

theorem functions_of_step {invoke : Invoke} {c c' : Context} (hq : invoke.Quiet c) {e e' : Expr}
    (h : evaluateStep? invoke e c = some (e', c')) : c'.functions = c.functions := by
  obtain ⟨r, r', hr, -⟩ := (atPlace_of_step h).exists_redex
  obtain rfl | ⟨target, -, rfl⟩ := hr.context hq
  · rfl
  · rfl

/-- A run that settles ends with an inert tree. -/
theorem inert_of_settle {invoke : Invoke}
    (hq : ∀ c : Context, c.LocalFunctions → invoke.Quiet c) {limit left : Nat} {e v : Expr}
    {c : Context} (hc : c.LocalFunctions)
    (h : (settle same (evaluateStep? invoke) limit left e c).1 = .ok v) : v.inert := by
  obtain ⟨n, -, hrun⟩ := settle_eq_ok_iff.1 (Prod.ext h rfl)
  refine inert_of_step_none (hrun.final (I := fun _ s => s.LocalFunctions) hc ?_).1
  intro a b s t hs hab
  refine ⟨same_of_step (hq s hs).result hab, fun name f hf => hs name f ?_⟩
  rw [← functions_of_step (hq s hs) hab]
  exact hf

end Expr

/-! ## Calls by name -/

namespace Context

theorem callScope_functions (c : Context) (parameters : List String) (args : List Expr) :
    (c.callScope parameters args).functions = c.functions := by
  unfold callScope
  generalize parameters.zip args = bindings
  exact List.foldlRecOn bindings _ (motive := fun d : Context => d.functions = c.functions) rfl
    fun _ hd _ _ => hd

/-- Calls are quiet when the bodies of expression functions are evaluated to inert trees. -/
theorem quiet_invokeWith {runBody : Expr → Context → Expr}
    (hrun : ∀ (body : Expr) (scope : Context), scope.LocalFunctions → (runBody body scope).inert)
    (hostDepth : Nat) {c : Context} (hc : c.LocalFunctions) :
    (invokeWith runBody hostDepth).Quiet c := by
  have key : ∀ name args, (invokeWith runBody hostDepth name args c).1.inert ∧
      (invokeWith runBody hostDepth name args c).2 = c := by
    intro name args
    cases hostDepth with
    | zero => exact ⟨rfl, rfl⟩
    | succ hostDepth =>
      unfold invokeWith
      split
      · exact ⟨rfl, rfl⟩
      · next f hf =>
        unfold Function.invoke
        split
        · cases f with
          | builtin b => exact ⟨inert_of_ground (b.ground_apply args), rfl⟩
          | host => exact absurd (hc name _ hf) (by simp [Function.isLocal])
          | expression parameters body =>
            refine ⟨hrun _ _ fun n g hg => hc n g ?_, rfl⟩
            rwa [callScope_functions] at hg
        · exact ⟨rfl, rfl⟩
  exact ⟨fun name args => (key name args).1, fun name args => (key name args).2⟩

theorem inert_runBody : ∀ (levels : Nat) (body : Expr) (scope : Context), scope.LocalFunctions →
    (runBody levels body scope).inert := by
  intro levels
  induction levels with
  | zero => intro body scope _; rfl
  | succ levels ih =>
    intro body scope hs
    unfold runBody
    split
    · next e he =>
      exact inert_of_settle (fun c hc => quiet_invokeWith ih maxHostDepth hc) hs he
    · rfl

/-- Calls of local functions are quiet. -/
theorem quiet_invoke {c : Context} (hc : c.LocalFunctions) : Invoke.Quiet Context.invoke c :=
  have h := quiet_invokeWith (inert_runBody (maxCallDepth - c.callDepth)) maxHostDepth hc
  ⟨h.result, h.context⟩

end Context

end Formula
