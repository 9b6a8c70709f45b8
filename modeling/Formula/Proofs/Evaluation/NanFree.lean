import Formula.Proofs.Evaluation.Kept
import Formula.Proofs.Expr.Wrapped
import Formula.Proofs.Reader.Readable

/-!
# No tree holds NaN

The undefined constant stands for what has no value, so that no number of a tree is NaN (`Expr.NanFree`).
Every number that is read or computed becomes a tree through `Expr.ofFloat`; so reading makes such trees,
whatever the grammar (`Reader.nanFree_read`), and rewriting keeps them (`kept_nanFree`).

**Main statement** (`Workspace.nanFree_run`): from a reader and a context whose trees hold no NaN, no reading,
simplification or evaluation, nor anything in the scope of a call, makes a tree that does, in whatever order
and how often it is done.
-/

set_option autoImplicit false

namespace Formula

namespace Expr

/-- No number of the tree is NaN. -/
def NanFree (e : Expr) : Prop :=
  ∀ x ∈ e.numbers, x.isNaN = false

theorem nanFree_list {es : List Expr} :
    (∀ x ∈ allNumbers es, x.isNaN = false) ↔ ∀ e ∈ es, e.NanFree := by
  constructor
  · intro h e he x hx
    exact h x (mem_allNumbers.2 ⟨e, he, hx⟩)
  · intro h x hx
    obtain ⟨e, he, hx⟩ := mem_allNumbers.1 hx
    exact h e he x hx

theorem nanFree_binary {l r : Expr} {op : BinaryOperator} :
    (binary l op r).NanFree ↔ l.NanFree ∧ r.NanFree := by
  simp only [NanFree, numbers, List.forall_mem_append]

theorem nanFree_constant (kind : Constant) : (constant kind).NanFree := by
  simp [NanFree, numbers]

theorem nanFree_variable (name : String) : (Expr.variable name).NanFree := by
  simp [NanFree, numbers]

theorem nanFree_ofFloat (x : Float) : (ofFloat x).NanFree := by
  unfold ofFloat
  split
  · exact nanFree_constant .undefined
  · next hx => simpa [NanFree, numbers] using hx

theorem kept_nanFree : Kept NanFree where
  undefined := nanFree_constant .undefined
  ofFloat := nanFree_ofFloat
  unary h := h
  binary hl hr := nanFree_binary.2 ⟨hl, hr⟩
  elements h := nanFree_list.1 h
  collection _ _ h := nanFree_list.2 h
  inner h := h
  parens _ h := h
  operand h := h
  operands h := nanFree_binary.1 h
  value h := h
  assign _ h := h
  args h := nanFree_list.1 h
  call _ _ h := nanFree_list.2 h

end Expr

/-! ## Reading -/

namespace Yielding

open Formula.Expr

variable {m : Type → Type} [Monad m] [MonadExceptOf ReadError m] (Y : Yielding m)
  {read : List Char → m Expr}

section
variable (h : ∀ q, Y.yields NanFree (read q))
include h

theorem nanFree_readList (list : List Char) :
    Y.yields (fun es => ∀ e ∈ es, e.NanFree) (readList read list) := by
  refine Y.bind (Y.orThrow _ _) fun hid _ => ?_
  split
  · exact Y.pure fun e he => by cases he
  · exact Y.mono (fun _ hes => hes.2) (Y.readAll fun q _ => h q)

theorem nanFree_buildBinary (op : BinaryOperator) (input : List Char) (token : Token) :
    Y.yields NanFree (buildBinary read op input token) := by
  refine Y.bind (Y.orThrow _ _) fun front _ => Y.bind (h front) fun l hl => ?_
  refine Y.bind (Y.orThrow _ _) fun back _ => Y.bind (h back) fun r hr => ?_
  exact Y.pure (nanFree_binary.2 ⟨hl, hr⟩)

theorem nanFree_buildAssignment (input : List Char) (token : Token) :
    Y.yields NanFree (buildAssignment read input token) := by
  refine Y.bind (Y.orThrow _ _) fun front _ => Y.bind (h front) fun target _ => ?_
  cases target with
  | «variable» name =>
    exact Y.bind (Y.orThrow _ _) fun back _ => Y.bind (h back) fun e he => Y.pure he
  | _ => exact Y.throw _

/-- What a builder makes of trees without NaN has none. -/
theorem nanFree_buildPlain (builder : Builder) (input : List Char) (token : Token) :
    Y.yields NanFree (buildPlain read builder input token) := by
  cases builder with
  | binary => exact Y.bind (Y.orThrow _ _) fun op _ => Y.nanFree_buildBinary h op input token
  | binaryAs op => exact Y.nanFree_buildBinary h op input token
  | assignment => exact Y.nanFree_buildAssignment h input token
  | before | after =>
    refine Y.bind (Y.orThrow _ _) fun op _ => Y.bind (Y.orThrow _ _) fun operand _ => ?_
    exact Y.bind (h operand) fun e he => Y.pure he
  | constant => exact Y.bind (Y.orThrow _ _) fun kind _ => Y.pure (nanFree_constant kind)
  | «variable» => exact Y.pure (nanFree_variable _)
  | number => exact Y.bind (Y.orThrow _ _) fun x _ => Y.pure (nanFree_ofFloat x)
  | call =>
    refine Y.bind (Y.orThrow _ _) fun rest _ => Y.bind (Y.orThrow _ _) fun group _ => ?_
    refine Y.bind (Y.orThrow _ _) fun list _ => Y.bind (Y.nanFree_readList h list) fun es hes => ?_
    exact Y.pure (nanFree_list.2 hes)
  | tuple | vector =>
    refine Y.bind (Y.orThrow _ _) fun list _ => Y.bind (Y.nanFree_readList h list) fun es hes => ?_
    exact Y.pure (nanFree_list.2 hes)
  | parentheses => exact Y.bind (Y.orThrow _ _) fun list _ => Y.bind (h list) fun e he => Y.pure he
  | aroundGroups | host => exact Y.throw _

/-- One step of reading makes a tree without NaN of such trees. -/
theorem nanFree_readStep (g : Grammar) (input : List Char) :
    Y.yields NanFree (readStep g read input) := by
  refine Y.bind (Y.orThrow _ _) fun found _ => ?_
  obtain ⟨builder, token⟩ := found
  have hplain := Y.nanFree_buildPlain h builder input token
  cases builder with
  | aroundGroups =>
    refine Y.bind (Y.orThrow _ _) fun hid _ => Y.bind (Y.orThrow _ _) fun found _ => ?_
    exact Y.bind (Y.orThrow _ _) fun index _ => Y.nanFree_buildPlain h _ input _
  | _ => exact hplain

end

end Yielding

/-- A reader that remembers no tree with NaN makes none, and remembers none afterwards. -/
theorem Reader.nanFree_read {r : Reader} (h : r.cache.All Expr.NanFree) (text : List Char) :
    (r.read text).2.cache.All Expr.NanFree ∧ ∀ e, (r.read text).1 = .ok e → e.NanFree :=
  yields_readWithin (fun hread => (Yielding.cached _).nanFree_readStep hread r.grammar) r.maxDepth
    r.maxDepth text r.cache h

/-! ## Reading, simplifying and evaluating in any order -/

/-- A reader and a context that are used together. -/
structure Workspace where
  reader : Reader
  context : Context

namespace Workspace

open Formula.Expr

/-- What is done in a workspace: a text is read; a tree is simplified or evaluated, by one rewrite or for as
long as a run lasts; or a call of an expression function is entered. -/
inductive Action where
  | read (text : List Char)
  | simplifyStep (e : Expr)
  | simplify (e : Expr)
  | evaluateStep (e : Expr)
  | evaluate (e : Expr)
  | enter (name : String) (args : List Expr)

/-- The trees that an action is given. -/
def Action.given : Action → List Expr
  | .read _ => []
  | .simplifyStep e | .simplify e | .evaluateStep e | .evaluate e => [e]
  | .enter _ args => args

/-- The trees that an action makes, and the workspace after it. A run that gives up makes the tree that it
reached. A call makes the body of the function, to be evaluated in the scope of the call. -/
def perform (w : Workspace) : Action → List Expr × Workspace
  | .read text =>
    ((w.reader.read text).1.toOption.toList, { w with reader := (w.reader.read text).2 })
  | .simplifyStep e => ([e.simplifyStep], w)
  | .simplify e => ([reached e.simplify], w)
  | .evaluateStep e =>
    ([(e.evaluateStep w.context).1], { w with context := (e.evaluateStep w.context).2 })
  | .evaluate e =>
    ([reached (e.evaluate w.context).1], { w with context := (e.evaluate w.context).2 })
  | .enter name args =>
    match w.context.functions.get? name with
    | some (.expression parameters body) =>
      ([body], { w with context := w.context.callScope parameters args })
    | _ => ([], w)

/-- The trees that actions make one after the other, and the workspace after them. -/
def run : List Action → Workspace → List Expr × Workspace
  | [], w => ([], w)
  | action :: actions, w =>
    let (made, w) := w.perform action
    let (rest, w) := run actions w
    (made ++ rest, w)

/-- No tree that is remembered or bound in the workspace holds NaN, and no function is the host's. -/
structure NanFree (w : Workspace) : Prop where
  cache : w.reader.cache.All Expr.NanFree
  context : w.context.Holds Expr.NanFree

/-- An action that is given trees without NaN makes such trees. -/
theorem NanFree.perform {w : Workspace} (hw : w.NanFree) {action : Action}
    (h : ∀ e ∈ action.given, e.NanFree) :
    (∀ e ∈ (w.perform action).1, e.NanFree) ∧ (w.perform action).2.NanFree := by
  have hgiven : ∀ {e : Expr}, e ∈ action.given → e.NanFree := h _
  cases action with
  | read text =>
    obtain ⟨hcache, hgives⟩ := Reader.nanFree_read hw.cache text
    refine ⟨fun e he => hgives e ?_, hcache, hw.context⟩
    have he : (w.reader.read text).1.toOption = some e := Option.mem_toList.1 he
    cases hread : (w.reader.read text).1 with
    | error => rw [hread] at he; cases he
    | ok d => rw [hread] at he; cases he; rfl
  | simplifyStep e =>
    have htree := holds_simplifyStep kept_nanFree (hgiven List.mem_cons_self)
    exact ⟨List.forall_mem_singleton.2 htree, hw⟩
  | simplify e =>
    have htree := holds_simplify kept_nanFree (hgiven List.mem_cons_self)
    exact ⟨List.forall_mem_singleton.2 htree, hw⟩
  | evaluateStep e =>
    obtain ⟨htree, hcontext⟩ :=
      holds_evaluateStep kept_nanFree nanFree_variable (hgiven List.mem_cons_self) hw.context
    exact ⟨List.forall_mem_singleton.2 htree, hw.cache, hcontext⟩
  | evaluate e =>
    obtain ⟨htree, hcontext⟩ :=
      holds_evaluate kept_nanFree nanFree_variable (hgiven List.mem_cons_self) hw.context
    exact ⟨List.forall_mem_singleton.2 htree, hw.cache, hcontext⟩
  | enter name args =>
    simp only [Workspace.perform]
    split
    · next parameters body hf =>
      have hbody : body.NanFree := hw.context.functions name _ hf
      exact ⟨List.forall_mem_singleton.2 hbody, hw.cache, hw.context.callScope parameters h⟩
    · exact ⟨fun e he => (by cases he), hw⟩

/-- **No tree holds NaN.** Let no tree that a reader remembers, and no value and no body of a function in a
context hold NaN, and no function be the host's. Whatever texts are read and whatever trees without NaN are
simplified and evaluated there, one rewrite at a time or in runs, also in the scopes of calls, no tree that
is made holds NaN, nor one that is remembered or bound afterwards. -/
theorem nanFree_run {w : Workspace} (hw : w.NanFree) {actions : List Action}
    (h : ∀ action ∈ actions, ∀ e ∈ action.given, e.NanFree) :
    (∀ e ∈ (w.run actions).1, e.NanFree) ∧ (w.run actions).2.NanFree := by
  induction actions generalizing w with
  | nil => exact ⟨fun e he => (by cases he), hw⟩
  | cons action actions ih =>
    rw [List.forall_mem_cons] at h
    obtain ⟨hmade, hw'⟩ := hw.perform h.1
    obtain ⟨hrest, hw''⟩ := ih hw' h.2
    exact ⟨List.forall_mem_append.2 ⟨hmade, hrest⟩, hw''⟩

/-- The function that divides by zero has no value at zero: what is bound to it is undefined. -/
theorem nanFree_run_quotient :
    let ratio : Function := .expression ["x"] (.binary (.variable "x") .div (.number 0))
    let w : Workspace := ⟨.default, Context.withBuiltins.bindFunction "ratio" ratio⟩
    let actions : List Action := [.read "0 / 0".toList,
      .evaluate (.assign "y" (.call "ratio" [.number 0])), .enter "ratio" [.number 0]]
    ((∀ e ∈ (w.run actions).1, e.NanFree) ∧ (w.run actions).2.NanFree) ∧
      ((w.run actions).2.context.lookup "y").isUndefined := by
  intro ratio w actions
  have hzero : (Expr.number 0).NanFree := List.forall_mem_singleton.2 (by decide +kernel)
  have hratio : ratio.Holds Expr.NanFree := nanFree_binary.2 ⟨nanFree_variable "x", hzero⟩
  have hw : w.NanFree := ⟨Cache.all_empty, Context.holds_withBuiltins.bindFunction "ratio" hratio⟩
  have hassign : (assign "y" (.call "ratio" [.number 0])).NanFree :=
    nanFree_list.2 (List.forall_mem_singleton.2 hzero)
  refine ⟨nanFree_run hw ?_, by decide +kernel⟩
  simp [actions, Action.given, hzero, hassign]

end Workspace

end Formula
