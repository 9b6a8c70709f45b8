import Formula.Proofs.Evaluation.Ground

/-!
# What evaluation changes

Evaluation binds only names that an assignment binds in the tree or in a value that the context stores, and
changes nothing else in the context, however the run ends (`evaluate_sameBut`).

Looking up a variable can bring further assignments into the tree, and an assignment can store some. So
the invariant is about the tree and the context together: all assignments in both are to names of one set
(`AssignWithin`). Calls add none, as local functions answer with inert trees.
-/

set_option autoImplicit false

namespace Formula

/-! ## Contexts that differ in some variables only -/

namespace Context

/-- The contexts are the same but for the values of variables with names in `T`. -/
structure SameBut (T : String → Prop) (c d : Context) : Prop where
  values : ∀ name, ¬ T name → d.values.get? name = c.values.get? name
  functions : d.functions = c.functions
  maxIterations : d.maxIterations = c.maxIterations
  callDepth : d.callDepth = c.callDepth

variable {T : String → Prop}

theorem SameBut.refl (c : Context) : c.SameBut T c :=
  ⟨fun _ _ => rfl, rfl, rfl, rfl⟩

theorem SameBut.trans {b c d : Context} (h : b.SameBut T c) (h' : c.SameBut T d) : b.SameBut T d :=
  ⟨fun name hname => (h'.values name hname).trans (h.values name hname),
    h'.functions.trans h.functions, h'.maxIterations.trans h.maxIterations,
    h'.callDepth.trans h.callDepth⟩

theorem sameBut_bindVariable (c : Context) {name : String} (value : Expr) (h : T name) :
    c.SameBut T (c.bindVariable name value) where
  values other hother := by
    refine Table.get?_insert_of_ne _ _ fun heq => hother ?_
    rwa [heq]
  functions := rfl
  maxIterations := rfl
  callDepth := rfl

/-- The names that evaluating a tree may bind: those that it assigns to, and those that the values of the
context assign to. -/
def MayBind (c : Context) (t : Expr) (name : String) : Prop :=
  name ∈ t.targets ∨ ∃ x v, c.values.get? x = some v ∧ name ∈ v.targets

end Context

namespace Expr

/-! ## The targets of a tree -/

theorem mem_allTargets {name : String} {es : List Expr} :
    name ∈ allTargets es ↔ ∃ e ∈ es, name ∈ e.targets := by
  induction es with
  | nil => simp [allTargets]
  | cons e es ih => simp [allTargets, ih]

mutual

theorem targets_of_assignFree : ∀ {e : Expr}, e.assignFree → e.targets = []
  | .number _, _ | .constant _, _ | .variable _, _ => rfl
  | .parens inner, h => targets_of_assignFree (e := inner) h
  | .unary _ _ operand, h => targets_of_assignFree (e := operand) h
  | .binary left _ right, h => by
    simp only [assignFree, Bool.and_eq_true] at h
    simp [targets, targets_of_assignFree h.1, targets_of_assignFree h.2]
  | .call _ args, h => allTargets_of_allAssignFree (show allAssignFree args from h)
  | .collection _ elements, h => allTargets_of_allAssignFree (show allAssignFree elements from h)

theorem allTargets_of_allAssignFree : ∀ {es : List Expr}, allAssignFree es → allTargets es = []
  | [], _ => rfl
  | e :: es, h => by
    simp only [allAssignFree, Bool.and_eq_true] at h
    simp [allTargets, targets_of_assignFree h.1, allTargets_of_allAssignFree h.2]

end

theorem targets_of_inert {e : Expr} (h : e.inert) : e.targets = [] :=
  targets_of_assignFree (assignFree_of_inert h)

/-- Whether all assignments in a tree are to names in a set is decided by its operands. -/
theorem kept_targets (T : String → Prop) : Kept fun e => ∀ name ∈ e.targets, T name where
  undefined := by simp [targets]
  ofFloat x := by simp [targets_of_inert (inert_of_ground (ground_ofFloat x))]
  unary h := h
  binary hl hr := by
    rw [targets, List.forall_mem_append]
    exact ⟨hl, hr⟩
  elements h e he name hname := h name (mem_allTargets.2 ⟨e, he, hname⟩)
  collection _ _ h name hname := by
    obtain ⟨e, he, hname⟩ := mem_allTargets.1 hname
    exact h e he name hname
  inner h := h
  parens _ h := h
  operand h := h
  operands h := by rwa [targets, List.forall_mem_append] at h
  value h := by
    rw [targets, List.forall_mem_cons] at h
    exact h.2
  assign h h' := by
    rw [targets, List.forall_mem_cons] at h ⊢
    exact ⟨h.1, h'⟩
  args h e he name hname := h name (mem_allTargets.2 ⟨e, he, hname⟩)
  call _ _ h name hname := by
    obtain ⟨e, he, hname⟩ := mem_allTargets.1 hname
    exact h e he name hname

/-! ## One rewrite and whole runs -/

/-- All functions are local, and all assignments in the tree and in the values of the context are to names
in `T`. -/
structure AssignWithin (T : String → Prop) (e : Expr) (c : Context) : Prop where
  functions : c.LocalFunctions
  tree : ∀ name ∈ e.targets, T name
  values : ∀ x v, c.values.get? x = some v → ∀ name ∈ v.targets, T name

section
variable {T : String → Prop} {e e' : Expr} {c c' : Context}

theorem AssignWithin.lookup (h : AssignWithin T e c) (x : String) :
    ∀ name ∈ (c.lookup x).targets, T name :=
  Context.lookup_of_values (P := fun v => ∀ name ∈ v.targets, T name) h.values
    (by simp [targets]) (by simp [targets])

/-- A rewrite assigns to names in the set only, and all assignments that are left are to such names. -/
theorem AssignWithin.step (h : AssignWithin T e c)
    (hstep : evaluateStep? Context.invoke e c = some (e', c')) :
    AssignWithin T e' c' ∧ c.SameBut T c' := by
  have hq := Context.quiet_invoke h.functions
  have hplace : ((∀ x v, c'.values.get? x = some v → ∀ name ∈ v.targets, T name) ∧
      c.SameBut T c') ∧ ∀ name ∈ e'.targets, T name := by
    refine (kept_targets T).atPlace (fun {r r'} hr hredex => ?_) (atPlace_of_step hstep) h.tree
    have hr' : ∀ name ∈ r'.targets, T name := by
      refine (kept_targets T).redex (fun x _ => h.lookup x) (fun name args _ => ?_) hredex hr
      simp [targets_of_inert (hq.result name args)]
    obtain rfl | ⟨x, rfl, rfl⟩ := hredex.context hq
    · exact ⟨⟨h.values, .refl _⟩, hr'⟩
    · rw [targets, List.forall_mem_cons] at hr
      exact ⟨⟨Context.values_bindVariable h.values x hr', c.sameBut_bindVariable r' hr.1⟩, hr'⟩
  obtain ⟨⟨hvalues, hsame⟩, htree⟩ := hplace
  exact ⟨⟨local_of_step h.functions hstep, htree, hvalues⟩, hsame⟩

end

/-- A number of rewrites, one after the other. -/
def evaluateSteps : Nat → Expr → Context → Expr × Context
  | 0, e, c => (e, c)
  | n + 1, e, c =>
    let (e, c) := e.evaluateStep c
    evaluateSteps n e c

theorem AssignWithin.steps {T : String → Prop} (n : Nat) {e : Expr} {c : Context}
    (h : AssignWithin T e c) : c.SameBut T (evaluateSteps n e c).2 := by
  induction n generalizing e c with
  | zero => exact .refl c
  | succ n ih =>
    unfold evaluateSteps evaluateStep
    cases hs : evaluateStep? Context.invoke e c with
    | none => exact ih h
    | some next =>
      obtain ⟨e', c'⟩ := next
      obtain ⟨h', hsame⟩ := h.step hs
      exact hsame.trans (ih h')

theorem AssignWithin.evaluate {T : String → Prop} {e : Expr} {c : Context} (h : AssignWithin T e c) :
    c.SameBut T (e.evaluate c).2 := by
  have hstep : ∀ (a b : Expr) (s t : Context), AssignWithin T a s ∧ c.SameBut T s →
      evaluateStep? Context.invoke a s = some (b, t) → AssignWithin T b t ∧ c.SameBut T t := by
    rintro a b s t ⟨hs, hsame⟩ hab
    obtain ⟨ht, hsame'⟩ := hs.step hab
    exact ⟨ht, hsame.trans hsame'⟩
  have hrun : ∃ b, AssignWithin T b (e.evaluate c).2 ∧ c.SameBut T (e.evaluate c).2 :=
    (settle_invariant hstep ⟨h, .refl c⟩).1
  obtain ⟨_, -, hsame⟩ := hrun
  exact hsame

/-- **Only assigned names change.** Let all functions of a context be built in or expressions. However an
evaluation ends there, and after any number of rewrites, the context is the same but for the variables
that the tree, or a value stored in the context, assigns to. What the bodies of functions assign is lost:
calls leave the context as it is, at any depth. -/
theorem evaluate_sameBut {c : Context} (hc : c.LocalFunctions) (t : Expr) :
    c.SameBut (c.MayBind t) (t.evaluate c).2 ∧
      (∀ n, c.SameBut (c.MayBind t) (evaluateSteps n t c).2) ∧
      ∀ levels hostDepth name args,
        (Context.invokeWith (Context.runBody levels) hostDepth name args c).2 = c := by
  have h : AssignWithin (c.MayBind t) t c :=
    ⟨hc, fun _ => .inl, fun x v hv _ hname => .inr ⟨x, v, hv, hname⟩⟩
  refine ⟨h.evaluate, fun n => h.steps n, fun levels hostDepth name args => ?_⟩
  exact (Context.quiet_invokeWith (Context.inert_runBody levels) hostDepth hc).context name args

/-- `x = f(z)`, where `z` is `w = 1` and `f(p)` is `y = p`: binding `f` keeps all functions local, and only
`x` and `w` may be bound, not `y`. -/
theorem evaluate_sameBut_call :
    let c := (Context.withBuiltins.bindFunction "f"
      (.expression ["p"] (assign "y" (.variable "p")))).bindVariable "z" (assign "w" (.number 1))
    let t := assign "x" (call "f" [.variable "z"])
    (c.SameBut (c.MayBind t) (t.evaluate c).2 ∧
      (∀ n, c.SameBut (c.MayBind t) (evaluateSteps n t c).2) ∧
      ∀ levels hostDepth name args,
        (Context.invokeWith (Context.runBody levels) hostDepth name args c).2 = c) ∧
      c.MayBind t "w" ∧ ¬ c.MayBind t "y" := by
  intro c t
  have hc : c.LocalFunctions := by
    intro name f hf
    by_cases hname : name = "f"
    · subst hname
      have hf : (Context.withBuiltins.functions.insert _ _).get? "f" = some f := hf
      rw [Table.get?_insert_self] at hf
      cases hf
      rfl
    · refine ground_withBuiltins.local defaultMaxIterations name f ?_
      rw [← hf]
      exact (Table.get?_insert_of_ne _ _ hname).symm
  refine ⟨evaluate_sameBut hc t, .inr ⟨"z", assign "w" (.number 1), rfl, by simp [targets]⟩, ?_⟩
  rintro (hy | ⟨x, v, hv, hy⟩)
  · simp [t, targets, allTargets] at hy
  · have hentries : c.values.entries = [("z", assign "w" (.number 1))] := rfl
    have hmem := Table.mem_of_lookup (show Table.lookup x _ = some v from hv)
    rw [hentries, List.mem_singleton, Prod.mk.injEq] at hmem
    rw [hmem.2] at hy
    simp [targets] at hy

end Expr

end Formula
