import Formula.Proofs.Evaluation.Counted
import Mathlib.Logic.Function.Iterate

/-!
# Assignments under simplification

Simplification carries out no assignment, but it can lose some: an operator may answer without what stands
in its operands. Where it does is decided by the shape of the operands (`answersByShape`), and there the
assignments in both operands are gone. Every other rewrite keeps all assignments, and none adds one. So the
targets of a tree are those of its simplification and those that the rewrites in between discard
(`targets_simplify`).
-/

set_option autoImplicit false

namespace Formula.Expr

/-- Whether an operator over reduced operands answers without what stands in them: one of them is undefined;
it is an equality of collections, or of a collection and a scalar, that is decided; or it combines
collections of different lengths element by element. -/
def answersByShape (left : Expr) (op : BinaryOperator) (right : Expr) : Bool :=
  left.isUndefined || right.isUndefined ||
    let testsEquality := op = .equal ∨ op = .notEqual
    match left, right with
    | .collection _ ss, .collection _ ts =>
      if testsEquality then (equality? ss op ts).isSome else ss.length ≠ ts.length
    | .collection .., scalar | scalar, .collection .. => testsEquality && scalar.isScalar
    | _, _ => false

mutual

/-- The targets of the assignments that the next symbolic rewrite of a tree discards. -/
def discards : Expr → List String
  | .number _ | .constant _ | .variable _ => []
  | .parens inner => inner.discards
  | .unary _ _ operand => operand.discards
  | .binary left op right =>
    if left.simplifyStep?.isSome then left.discards
    else if right.simplifyStep?.isSome then right.discards
    else if answersByShape left op right then left.targets ++ right.targets
    else []
  | .assign _ value => value.discards
  | .call _ args => allDiscards args
  | .collection _ elements => allDiscards elements

/-- The targets of the assignments that the next symbolic rewrite in a list discards. -/
def allDiscards : List Expr → List String
  | [] => []
  | e :: es => if e.simplifyStep?.isSome then e.discards else allDiscards es

end

/-! ## What folding keeps and discards -/

theorem targets_ofFloat (x : Float) : (ofFloat x).targets = [] := by
  unfold ofFloat
  split <;> rfl

theorem targets_of_isScalar {e : Expr} (h : e.isScalar) : e.targets = [] := by
  cases e with
  | number | constant => rfl
  | _ => cases h

theorem allTargets_map_unary (side : Side) (op : UnaryOperator) (es : List Expr) :
    allTargets (es.map (.unary side op)) = allTargets es := by
  induction es with
  | nil => rfl
  | cons e es ih => simp only [List.map_cons, allTargets, targets, ih]

theorem targets_broadcast {kind : CollectionKind} {es : List Expr} {op : BinaryOperator}
    {scalar : Expr} (h : scalar.isScalar) (side : Side) :
    (broadcast kind es op scalar side).targets = allTargets es := by
  unfold broadcast
  rw [targets]
  induction es with
  | nil => rfl
  | cons e es ih =>
    cases side <;>
      simpa only [List.map_cons, allTargets, targets, targets_of_isScalar h, List.nil_append,
        List.append_nil, List.append_cancel_left_eq] using ih

theorem allTargets_zipWith (op : BinaryOperator) {ss ts : List Expr} (h : ss.length = ts.length) :
    (allTargets ss ++ allTargets ts).Perm
      (allTargets (List.zipWith (fun l r => .binary l op r) ss ts)) := by
  induction ss generalizing ts with
  | nil =>
    obtain rfl : ts = [] := List.length_eq_zero_iff.1 h.symm
    exact .refl _
  | cons s ss ih =>
    cases ts with
    | nil => cases h
    | cons t ts =>
      have hrest := List.perm_iff_count.1 (ih (Nat.succ.inj h))
      rw [List.perm_iff_count]
      intro name
      have hname := hrest name
      simp only [List.zipWith_cons_cons, allTargets, targets, List.count_append] at hname ⊢
      omega

theorem targets_foldUnary {side : Side} {op : UnaryOperator} {e r : Expr}
    (h : foldUnary? side op e = some r) : e.targets = r.targets := by
  unfold foldUnary? at h
  split at h <;> cases h
  · rfl
  · rw [targets_ofFloat, targets]
  · rw [targets, targets, allTargets_map_unary]

/-- A collection and a scalar, on whichever side, are compared by their shapes. -/
theorem answersByShape_unlike {kind : CollectionKind} {es : List Expr} {op : BinaryOperator}
    {scalar : Expr} (hs : scalar.isScalar) (hu : scalar.isUndefined = false) :
    answersByShape (.collection kind es) op scalar = decide (op = .equal ∨ op = .notEqual) ∧
      answersByShape scalar op (.collection kind es) = decide (op = .equal ∨ op = .notEqual) := by
  have hc : (collection kind es).isUndefined = false := rfl
  cases scalar with
  | number | constant => simp [answersByShape, hc, hu, hs]
  | _ => cases hs

/-- An operator that answers by the shape of its operands folds. -/
theorem exists_foldBinary_of_answersByShape {l r : Expr} {op : BinaryOperator}
    (h : answersByShape l op r) : ∃ e, foldBinary? false l op r = some e := by
  unfold answersByShape at h
  simp only [foldBinary_iff]
  by_cases hu : (l.isUndefined || r.isUndefined) = true
  · exact ⟨_, .undefined hu⟩
  · rw [Bool.or_eq_true, or_iff_right hu] at h
    rw [Bool.or_eq_true, not_or, Bool.not_eq_true, Bool.not_eq_true] at hu
    dsimp only at h
    split at h
    · next kind ss kind' ts =>
      by_cases ht : op = .equal ∨ op = .notEqual
      · rw [if_pos ht] at h
        obtain ⟨e, he⟩ := Option.isSome_iff_exists.1 h
        exact ⟨e, .compared kind kind' ht he⟩
      · exact ⟨_, .zip kind kind' ss ts ht⟩
    · next kind ss _ =>
      rw [Bool.and_eq_true, decide_eq_true_eq] at h
      exact ⟨_, .unlikeLeft kind ss h.2 hu.2 h.1⟩
    · next kind ts _ =>
      rw [Bool.and_eq_true, decide_eq_true_eq] at h
      exact ⟨_, .unlikeRight kind ts h.2 hu.1 h.1⟩
    · cases h

/-- An operator that folds answers by the shape of its operands, and then no assignment is left; or it keeps
the assignments in both. -/
theorem targets_foldBinary {l r e : Expr} {op : BinaryOperator}
    (h : foldBinary? false l op r = some e) :
    (answersByShape l op r ∧ e.targets = []) ∨
      (answersByShape l op r = false ∧ (l.targets ++ r.targets).Perm e.targets) := by
  cases foldBinary_iff.1 h with
  | undefined hu => exact .inl ⟨by simp [answersByShape, hu], rfl⟩
  | numbers => exact .inr ⟨rfl, by rw [targets_ofFloat]; rfl⟩
  | compared kind kind' ht he =>
    refine .inl ⟨by simp [answersByShape, ht, he], ?_⟩
    simp only [equality?, Option.map_eq_some_iff] at he
    obtain ⟨b, -, rfl⟩ := he
    exact targets_ofFloat _
  | undecided _ _ _ _ hfinal => cases hfinal
  | zip kind kind' ss ts ht =>
    by_cases hlen : ss.length = ts.length
    · refine .inr ⟨by simp [answersByShape, isUndefined, ht, hlen], ?_⟩
      rw [Expr.zip, if_pos hlen]
      exact allTargets_zipWith op hlen
    · refine .inl ⟨by simp [answersByShape, ht, hlen], ?_⟩
      rw [Expr.zip, if_neg hlen, targets]
  | unlikeLeft _ _ hs hu ht =>
    exact .inl ⟨by rw [(answersByShape_unlike hs hu).1, decide_eq_true ht], targets_ofFloat _⟩
  | left _ _ hs hu ht =>
    refine .inr ⟨by rw [(answersByShape_unlike hs hu).1, decide_eq_false ht], ?_⟩
    rw [targets_broadcast hs, targets_of_isScalar hs, List.append_nil, targets]
  | unlikeRight _ _ hs hu ht =>
    exact .inl ⟨by rw [(answersByShape_unlike hs hu).2, decide_eq_true ht], targets_ofFloat _⟩
  | right _ _ hs hu ht =>
    refine .inr ⟨by rw [(answersByShape_unlike hs hu).2, decide_eq_false ht], ?_⟩
    rw [targets_broadcast hs, targets_of_isScalar hs, List.nil_append, targets]

/-! ## One rewrite and whole runs -/

mutual

theorem discards_of_simplifyStep_none : ∀ {e : Expr}, simplifyStep? e = none → e.discards = []
  | .number _, _ | .constant _, _ | .variable _, _ => rfl
  | .parens inner, h => by
    simp only [simplifyStep?] at h
    split at h
    · cases h
    · next hi => exact discards_of_simplifyStep_none (e := inner) hi
  | .unary _ _ operand, h => by
    simp only [simplifyStep?] at h
    split at h
    · cases h
    · next ho => exact discards_of_simplifyStep_none (e := operand) ho
  | .binary left op right, h => by
    simp only [simplifyStep?] at h
    split at h
    · cases h
    · next hl =>
      split at h
      · cases h
      · next hr =>
        have hshape : answersByShape left op right = false := by
          by_cases hshape : answersByShape left op right = true
          · obtain ⟨e, he⟩ := exists_foldBinary_of_answersByShape hshape
            rw [he] at h
            cases h
          · exact Bool.eq_false_iff.2 hshape
        simp [discards, hl, hr, hshape]
  | .assign _ value, h => by
    rw [simplifyStep?, Option.map_eq_none_iff] at h
    exact discards_of_simplifyStep_none (e := value) h
  | .call _ args, h => by
    rw [simplifyStep?, Option.map_eq_none_iff] at h
    exact allDiscards_of_simplifyFirst_none h
  | .collection _ elements, h => by
    rw [simplifyStep?, Option.map_eq_none_iff] at h
    exact allDiscards_of_simplifyFirst_none h

theorem allDiscards_of_simplifyFirst_none : ∀ {es : List Expr}, simplifyFirst? es = none →
    allDiscards es = []
  | [], _ => rfl
  | e :: es, h => by
    simp only [simplifyFirst?] at h
    split at h
    · cases h
    · next he =>
      rw [Option.map_eq_none_iff] at h
      simp [allDiscards, he, allDiscards_of_simplifyFirst_none h]

end

mutual

/-- A symbolic rewrite keeps all assignments but those that it discards, and adds none. -/
theorem targets_of_simplifyStep : ∀ {e e' : Expr}, simplifyStep? e = some e' →
    e.targets.Perm (e'.targets ++ e.discards)
  | .number _, _, h | .constant _, _, h | .variable _, _, h => by cases h
  | .parens inner, _, h => by
    simp only [simplifyStep?] at h
    split at h
    · next hi =>
      cases h
      have hinner := targets_of_simplifyStep hi
      exact hinner
    · next hi =>
      split at h <;> cases h
      rw [discards, discards_of_simplifyStep_none hi, List.append_nil, targets]
  | .unary _ _ operand, _, h => by
    simp only [simplifyStep?] at h
    split at h
    · next ho =>
      cases h
      have hoperand := targets_of_simplifyStep ho
      exact hoperand
    · next ho =>
      rw [discards, discards_of_simplifyStep_none ho, List.append_nil, targets, targets_foldUnary h]
  | .binary left op right, _, h => by
    simp only [simplifyStep?] at h
    split at h
    · next hl =>
      cases h
      have hleft := List.perm_iff_count.1 (targets_of_simplifyStep hl)
      rw [List.perm_iff_count]
      intro name
      have hname := hleft name
      simp only [discards, hl, Option.isSome_some, if_true, targets, List.count_append] at hname ⊢
      omega
    · next hl =>
      split at h
      · next hr =>
        cases h
        have hright := (targets_of_simplifyStep hr).append_left left.targets
        simpa [discards, hl, hr, targets, List.append_assoc] using hright
      · next hr =>
        obtain ⟨hshape, he⟩ | ⟨hshape, he⟩ := targets_foldBinary h
        · simp [discards, hl, hr, hshape, he, targets]
        · simpa [discards, hl, hr, hshape, targets] using he
  | .assign target value, _, h => by
    simp only [simplifyStep?, Option.map_eq_some_iff] at h
    obtain ⟨v, hv, rfl⟩ := h
    exact (targets_of_simplifyStep hv).cons target
  | .call _ args, _, h => by
    simp only [simplifyStep?, Option.map_eq_some_iff] at h
    obtain ⟨as, ha, rfl⟩ := h
    exact allTargets_of_simplifyFirst ha
  | .collection _ elements, _, h => by
    simp only [simplifyStep?, Option.map_eq_some_iff] at h
    obtain ⟨es, he, rfl⟩ := h
    exact allTargets_of_simplifyFirst he

theorem allTargets_of_simplifyFirst : ∀ {es es' : List Expr}, simplifyFirst? es = some es' →
    (allTargets es).Perm (allTargets es' ++ allDiscards es)
  | [], _, h => by cases h
  | e :: es, _, h => by
    simp only [simplifyFirst?] at h
    split at h
    · next he =>
      cases h
      have hhead := List.perm_iff_count.1 (targets_of_simplifyStep he)
      rw [List.perm_iff_count]
      intro name
      have hname := hhead name
      simp only [allDiscards, he, Option.isSome_some, if_true, allTargets, List.count_append] at hname ⊢
      omega
    · next he =>
      simp only [Option.map_eq_some_iff] at h
      obtain ⟨fs, hf, rfl⟩ := h
      have htail := (allTargets_of_simplifyFirst hf).append_left e.targets
      simpa [allDiscards, he, allTargets, List.append_assoc] using htail

end

/-- The targets of the assignments that the first symbolic rewrites of a tree discard. -/
def discardsWithin : Nat → Expr → List String
  | 0, _ => []
  | n + 1, e => e.discards ++ discardsWithin n e.simplifyStep

theorem targets_of_settlesIn {n : Nat} {t s : Expr} {u v : Unit}
    (h : SettlesIn same (fun e (_ : Unit) => e.simplifyStep?.map (·, ())) n t u s v) :
    s = simplifyStep^[n] t ∧ t.targets.Perm (s.targets ++ discardsWithin n t) := by
  induction h with
  | rest => simp [discardsWithin]
  | equal => simp [discardsWithin]
  | @next n a b s _ _ _ hstep _ _ ih =>
    simp only [Option.map_eq_some_iff, Prod.mk.injEq, and_true] at hstep
    obtain ⟨e, he, rfl⟩ := hstep
    have hb : a.simplifyStep = e := by rw [simplifyStep, he, Option.getD_some]
    obtain ⟨hs, hperm⟩ := ih
    refine ⟨by rw [Function.iterate_succ_apply, hb, hs], ?_⟩
    rw [List.perm_iff_count]
    intro name
    have hfirst := List.perm_iff_count.1 (targets_of_simplifyStep he) name
    have hrest := List.perm_iff_count.1 hperm name
    simp only [discardsWithin, hb, List.count_append] at hfirst hrest ⊢
    omega

/-- **Simplification keeps the assignments that no operator answers without.** A simplification makes at
most `defaultMaxIterations` rewrites, and the targets of a tree are, each as often, those of its
simplification and those that these rewrites discard. -/
theorem targets_simplify {t s : Expr} (h : t.simplify = .ok s) :
    ∃ n ≤ defaultMaxIterations, s = simplifyStep^[n] t ∧
      t.targets.Perm (s.targets ++ discardsWithin n t) := by
  have hrun : settle same (fun e (_ : Unit) => e.simplifyStep?.map (·, ())) defaultMaxIterations
      defaultMaxIterations t () = (.ok s, ()) := Prod.ext h rfl
  obtain ⟨n, hn, hsettles⟩ := settle_eq_ok_iff.1 hrun
  exact ⟨n, hn, targets_of_settlesIn hsettles⟩

/-- Not all assignments are kept: `undefined + (x = 1)` simplifies to `undefined`. -/
theorem simplify_discards_assignment :
    let t := binary undefined .add (assign "x" (.number 1))
    t.simplify = .ok undefined ∧ t.targets = ["x"] ∧ ¬ undefined.targets.Perm t.targets := by
  refine ⟨rfl, rfl, fun h => ?_⟩
  simpa [targets] using h.length_eq

/-- `undefined + (x = 1)` discards the assignment in its only rewrite. -/
theorem targets_simplify_undefined :
    let t := binary undefined .add (assign "x" (.number 1))
    (∃ n ≤ defaultMaxIterations, undefined = simplifyStep^[n] t ∧
      t.targets.Perm (undefined.targets ++ discardsWithin n t)) ∧ discardsWithin 1 t = ["x"] :=
  ⟨targets_simplify rfl, rfl⟩

end Formula.Expr
