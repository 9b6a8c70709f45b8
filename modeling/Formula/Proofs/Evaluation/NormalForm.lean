import Formula.Proofs.Evaluation.Ground

/-!
# Normal forms of evaluation

A tree is at rest in a context exactly when every node of it is finished there (`step_none_iff`): a
number, the undefined constant or a collection; a variable that stands for itself; or an operator that is
held up by an operand that is a variable or an operator again. Calls answer with inert trees, so a run in
a context with local functions never stops for another reason, and what it ends with is at rest in the
context that it leaves (`evaluate_normalForm`).
-/

set_option autoImplicit false

namespace Formula.Expr

/-- Whether a tree is a variable or an operator over operands. -/
def isSymbolic : Expr → Bool
  | .variable _ | .unary .. | .binary .. => true
  | _ => false

/-- Whether evaluation in the context has nothing to do at the root of a tree whose operands are at
rest. -/
def Finished (c : Context) : Expr → Prop
  | .number _ | .collection .. => True
  | .constant kind => kind = .undefined
  | .variable name => c.lookup name = .variable name
  | .unary _ _ operand => operand.isSymbolic
  | .binary left _ right =>
    left.isUndefined = false ∧ right.isUndefined = false ∧ (left.isSymbolic ∨ right.isSymbolic)
  | .parens _ | .assign .. | .call .. => False

theorem same_variable_iff {e : Expr} {name : String} :
    same e (.variable name) ↔ e = .variable name := by
  cases e <;> simp [same]

/-- Nothing is both symbolic and something that an operator folds to. -/
theorem Folded.not_symbolic {e : Expr} (h : Folded e) : e.isSymbolic = false := by
  cases h <;> rfl

/-! ## Operators that nothing folds -/

theorem foldUnary_of_symbolic {side : Side} {op : UnaryOperator} {e : Expr} (h : e.isSymbolic) :
    foldUnary? side op e = none := by
  cases e with
  | «variable» | unary | binary => rfl
  | _ => cases h

theorem foldUnary_eq_none_iff {side : Side} {op : UnaryOperator} {e : Expr}
    (he : e.isSymbolic ∨ Folded e) : foldUnary? side op e = none ↔ e.isSymbolic := by
  refine ⟨fun h => he.resolve_right fun hf => ?_, foldUnary_of_symbolic⟩
  cases hf <;> cases h

theorem isScalar_of_symbolic {e : Expr} (h : e.isSymbolic) : e.isScalar = false := by
  cases e with
  | «variable» | unary | binary => rfl
  | _ => cases h

theorem foldBinary_of_symbolic {final : Bool} {op : BinaryOperator} {l r : Expr}
    (hl : l.isUndefined = false) (hr : r.isUndefined = false) (h : l.isSymbolic ∨ r.isSymbolic) :
    foldBinary? final l op r = none := by
  rw [Option.eq_none_iff_forall_ne_some]
  intro e he
  cases foldBinary_iff.1 he with
  | undefined hu =>
    rw [hl, hr] at hu
    cases hu
  | numbers | compared | undecided | zip => rcases h with h | h <;> cases h
  | unlikeLeft _ _ hs | left _ _ hs =>
    rcases h with h | h
    · cases h
    · rw [isScalar_of_symbolic h] at hs
      cases hs
  | unlikeRight _ _ hs | right _ _ hs =>
    rcases h with h | h
    · rw [isScalar_of_symbolic h] at hs
      cases hs
    · cases h

theorem foldBinary_eq_none_iff {op : BinaryOperator} {l r : Expr} (hl : l.isSymbolic ∨ Folded l)
    (hr : r.isSymbolic ∨ Folded r) : foldBinary? true l op r = none ↔
      l.isUndefined = false ∧ r.isUndefined = false ∧ (l.isSymbolic ∨ r.isSymbolic) := by
  constructor
  · intro h
    have hu : (l.isUndefined || r.isUndefined) = false := by
      rw [← Bool.not_eq_true]
      intro hu
      cases h.symm.trans (foldBinary_iff.2 (.undefined hu))
    rw [Bool.or_eq_false_iff] at hu
    refine ⟨hu.1, hu.2, ?_⟩
    rcases hl with hl | hl
    · exact .inl hl
    · rcases hr with hr | hr
      · exact .inr hr
      · obtain ⟨e, he⟩ := hl.exists_foldBinary op hr
        rw [he] at h
        cases h
  · rintro ⟨hul, hur, hs⟩
    exact foldBinary_of_symbolic hul hur hs

section
variable {invoke : Invoke} {c : Context}

/-- At its root a tree at rest is symbolic or what an operator folds to. -/
theorem symbolic_or_folded {e : Expr} (h : evaluateStep? invoke e c = none) :
    e.isSymbolic ∨ Folded e := by
  have hinert := inert_of_step_none h
  cases e with
  | number x => exact .inr (.number x)
  | constant kind =>
    have hk : kind = .undefined := by
      cases kind <;> first | rfl | cases h
    exact .inr (hk ▸ .undefined)
  | «variable» | unary | binary => exact .inl rfl
  | collection kind es => exact .inr (.collection kind es)
  | parens | assign | call => cases hinert

/-! ## Trees at rest -/

mutual

/-- A tree is at rest in a context exactly when all of its nodes are finished there. -/
theorem step_none_iff : ∀ {e : Expr}, evaluateStep? invoke e c = none ↔
    ∀ s ∈ e.subtrees, s.Finished c
  | .number _ => by simp [evaluateStep?, subtrees, Finished]
  | .constant kind => by cases kind <;> simp [evaluateStep?, subtrees, Finished, Constant.value?]
  | .variable name => by
    simp only [subtrees, List.mem_singleton, forall_eq, Finished,
      ← same_variable_iff (e := c.lookup name), evaluateStep?]
    by_cases h : (c.lookup name).same (.variable name) <;> simp [h]
  | .parens inner => by
    simp only [evaluateStep?, subtrees, List.forall_mem_cons, Finished, false_and, iff_false]
    split <;> simp
  | .unary side op operand => by
    rw [subtrees, List.forall_mem_cons, ← step_none_iff (e := operand), evaluateStep?]
    split
    · next ho => simp [ho]
    · next ho =>
      rw [Option.map_eq_none_iff, foldUnary_eq_none_iff (symbolic_or_folded ho)]
      exact ⟨fun hs => ⟨hs, ho⟩, fun h => h.1⟩
  | .binary left op right => by
    rw [subtrees, List.forall_mem_cons, List.forall_mem_append, ← step_none_iff (e := left),
      ← step_none_iff (e := right), evaluateStep?]
    split
    · next hl => simp [hl]
    · next hl =>
      split
      · next hr => simp [hr]
      · next hr =>
        rw [Option.map_eq_none_iff,
          foldBinary_eq_none_iff (symbolic_or_folded hl) (symbolic_or_folded hr)]
        exact ⟨fun h => ⟨h, hl, hr⟩, fun h => h.1⟩
  | .assign target value => by
    simp only [evaluateStep?, subtrees, List.forall_mem_cons, Finished, false_and, iff_false]
    split <;> simp
  | .call name args => by
    simp only [evaluateStep?, subtrees, List.forall_mem_cons, Finished, false_and, iff_false]
    split <;> simp
  | .collection kind elements => by
    have hes : evaluateFirst? invoke elements c = none ↔ _ := first_none_iff
    rw [subtrees, List.forall_mem_cons, ← hes, evaluateStep?, Option.map_eq_none_iff]
    exact ⟨fun h => ⟨trivial, h⟩, fun h => h.2⟩

theorem first_none_iff : ∀ {es : List Expr}, evaluateFirst? invoke es c = none ↔
    ∀ s ∈ allSubtrees es, s.Finished c
  | [] => by simp [evaluateFirst?, allSubtrees]
  | e :: es => by
    have hes : evaluateFirst? invoke es c = none ↔ _ := first_none_iff
    rw [allSubtrees, List.forall_mem_append, ← step_none_iff (e := e), ← hes, evaluateFirst?]
    split
    · next he => simp [he]
    · next he => simp [he]

end

end

mutual

/-- Without variables nothing is held up: a tree of finished nodes is ground. -/
theorem ground_of_finished {c : Context} : ∀ {e : Expr}, (∀ s ∈ e.subtrees, s.Finished c) →
    e.variableNames = [] → e.ground
  | .number _, _, _ => rfl
  | .constant kind, h, _ => by simpa [subtrees, Finished, ground] using h
  | .variable _, _, hv => by cases hv
  | .parens _, h, _ | .assign .., h, _ | .call .., h, _ => by simp [subtrees, Finished] at h
  | .unary _ _ operand, h, hv => by
    simp only [subtrees, List.forall_mem_cons, Finished] at h
    have hground := ground_of_finished (e := operand) h.2 hv
    simp [(folded_of_ground hground).not_symbolic] at h
  | .binary left _ right, h, hv => by
    simp only [subtrees, List.forall_mem_cons, List.forall_mem_append, Finished] at h
    simp only [variableNames, List.append_eq_nil_iff] at hv
    have hleft := ground_of_finished h.2.1 hv.1
    have hright := ground_of_finished h.2.2 hv.2
    simp [(folded_of_ground hleft).not_symbolic, (folded_of_ground hright).not_symbolic] at h
  | .collection _ elements, h, hv => by
    simp only [subtrees, List.forall_mem_cons] at h
    exact allGround_of_finished h.2 hv

theorem allGround_of_finished {c : Context} : ∀ {es : List Expr},
    (∀ s ∈ allSubtrees es, s.Finished c) → allVariableNames es = [] → allGround es
  | [], _, _ => rfl
  | e :: es, h, hv => by
    simp only [allSubtrees, List.forall_mem_append] at h
    simp only [allVariableNames, List.append_eq_nil_iff] at hv
    simp [allGround, ground_of_finished h.1 hv.1, allGround_of_finished h.2 hv.2]

end

/-- A tree at rest evaluates to itself and leaves the context as it is, whatever its limit. -/
theorem evaluate_of_step_none {e : Expr} {c : Context}
    (h : evaluateStep? Context.invoke e c = none) : e.evaluate c = (.ok e, c) :=
  evaluate_of_evaluatesIn (.rest h) (Nat.zero_le _)

/-- **Evaluation ends at normal forms.** Let all functions of a context be built in or expressions. If a
tree evaluates to `u` there, every node of `u` is finished in the context that is left, so evaluating `u`
again gives `u` and changes nothing; and without variables `u` is ground. -/
theorem evaluate_normalForm {t u : Expr} {c c' : Context} (hc : c.LocalFunctions)
    (h : t.evaluate c = (.ok u, c')) :
    (∀ e ∈ u.subtrees, e.Finished c') ∧ u.evaluate c' = (.ok u, c') ∧
      (u.variableNames = [] → u.ground) := by
  obtain ⟨n, -, hrun⟩ := settle_eq_ok_iff.1 h
  have hrest : evaluateStep? Context.invoke u c' = none := (EvaluatesIn.final hrun hc).1
  have hfinished := step_none_iff.1 hrest
  exact ⟨hfinished, evaluate_of_step_none hrest, ground_of_finished hfinished⟩

/-- `-(x = sin)` ends at `-sin`: a function that no variable is named like stands for itself, and holds
the operator up. -/
theorem evaluate_normalForm_stuck :
    let c := Context.withBuiltins
    let c' := c.bindVariable "x" (.variable "sin")
    let u : Expr := .unary .before .negate (.variable "sin")
    (∀ e ∈ u.subtrees, e.Finished c') ∧ u.evaluate c' = (.ok u, c') ∧
      (u.variableNames = [] → u.ground) := by
  exact evaluate_normalForm (t := .unary .before .negate (.assign "x" (.variable "sin")))
    (c := Context.withBuiltins) (ground_withBuiltins.local defaultMaxIterations) rfl

end Formula.Expr
