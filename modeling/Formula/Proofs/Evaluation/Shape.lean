import Formula.Context.Evaluate

/-!
# The shape of reduced trees

Evaluation removes assignments, calls and parentheses wherever they stand: a tree without a further
rewrite is `Expr.inert` (`inert_of_step_none`). When a binary operator folds, and to what, is said once
(`foldBinary_iff`): to the undefined constant, a number or a collection of nodes over the elements of its
operands (`Folded`, `BinaryFold`). So it never folds to an operator again (`Folded.same_unary`,
`Folded.same_binary`), and a property that operators and collections hand on passes to what they fold to
(`Inherited`).
-/

set_option autoImplicit false

namespace Formula.Expr

mutual

/-- Whether no assignment stands in a tree. -/
def assignFree : Expr → Bool
  | .number _ | .constant _ | .variable _ => true
  | .parens inner => inner.assignFree
  | .unary _ _ operand => operand.assignFree
  | .binary left _ right => left.assignFree && right.assignFree
  | .assign .. => false
  | .call _ args => allAssignFree args
  | .collection _ elements => allAssignFree elements

/-- Whether no assignment stands in any of several trees. -/
def allAssignFree : List Expr → Bool
  | [] => true
  | e :: es => e.assignFree && allAssignFree es

end

mutual

/-- The names that a tree assigns to, as often as assignments to them stand there. -/
def targets : Expr → List String
  | .number _ | .constant _ | .variable _ => []
  | .parens inner => inner.targets
  | .unary _ _ operand => operand.targets
  | .binary left _ right => left.targets ++ right.targets
  | .assign target value => target :: value.targets
  | .call _ args => allTargets args
  | .collection _ elements => allTargets elements

/-- The names that several trees assign to. -/
def allTargets : List Expr → List String
  | [] => []
  | e :: es => e.targets ++ allTargets es

end

mutual

/-- All subtrees of a tree, itself first. -/
def subtrees : Expr → List Expr
  | e@(.number _) | e@(.constant _) | e@(.variable _) => [e]
  | e@(.parens inner) => e :: inner.subtrees
  | e@(.unary _ _ operand) => e :: operand.subtrees
  | e@(.binary left _ right) => e :: (left.subtrees ++ right.subtrees)
  | e@(.assign _ value) => e :: value.subtrees
  | e@(.call _ args) => e :: allSubtrees args
  | e@(.collection _ elements) => e :: allSubtrees elements

/-- All subtrees of several trees. -/
def allSubtrees : List Expr → List Expr
  | [] => []
  | e :: es => e.subtrees ++ allSubtrees es

end

mutual

/-- Whether neither an assignment nor a call nor parentheses stand in a tree. -/
def inert : Expr → Bool
  | .number _ | .constant _ | .variable _ => true
  | .unary _ _ operand => operand.inert
  | .binary left _ right => left.inert && right.inert
  | .collection _ elements => allInert elements
  | .parens _ | .assign .. | .call .. => false

/-- Whether several trees are all inert. -/
def allInert : List Expr → Bool
  | [] => true
  | e :: es => e.inert && allInert es

end

mutual

/-- Whether a tree is made of numbers, the undefined constant and collections only. -/
def ground : Expr → Bool
  | .number _ => true
  | .constant kind => kind = .undefined
  | .collection _ elements => allGround elements
  | .variable _ | .parens _ | .unary .. | .binary .. | .assign .. | .call .. => false

/-- Whether several trees are all ground. -/
def allGround : List Expr → Bool
  | [] => true
  | e :: es => e.ground && allGround es

end

theorem allAssignFree_iff {es : List Expr} : allAssignFree es ↔ ∀ e ∈ es, e.assignFree := by
  induction es with
  | nil => simp [allAssignFree]
  | cons e es ih => simp [allAssignFree, ih]

theorem allGround_iff {es : List Expr} : allGround es ↔ ∀ e ∈ es, e.ground := by
  induction es with
  | nil => simp [allGround]
  | cons e es ih => simp [allGround, ih]

mutual

theorem inert_of_ground : ∀ {e : Expr}, e.ground → e.inert
  | .number _, _ | .constant _, _ => rfl
  | .collection _ elements, h => allInert_of_allGround (show allGround elements from h)

theorem allInert_of_allGround : ∀ {es : List Expr}, allGround es → allInert es
  | [], _ => rfl
  | e :: es, h => by
    simp only [allGround, Bool.and_eq_true] at h
    simp [allInert, inert_of_ground h.1, allInert_of_allGround h.2]

end

mutual

theorem assignFree_of_inert : ∀ {e : Expr}, e.inert → e.assignFree
  | .number _, _ | .constant _, _ | .variable _, _ => rfl
  | .unary _ _ operand, h => assignFree_of_inert (e := operand) h
  | .binary left _ right, h => by
    simp only [inert, Bool.and_eq_true] at h
    simp [assignFree, assignFree_of_inert h.1, assignFree_of_inert h.2]
  | .collection _ elements, h => allAssignFree_of_allInert (show allInert elements from h)

theorem allAssignFree_of_allInert : ∀ {es : List Expr}, allInert es → allAssignFree es
  | [], _ => rfl
  | e :: es, h => by
    simp only [allInert, Bool.and_eq_true] at h
    simp [allAssignFree, assignFree_of_inert h.1, allAssignFree_of_allInert h.2]

end

theorem ofFloat_of_isNaN {x : Float} (h : x.isNaN = false) : ofFloat x = .number x := by
  rw [ofFloat, h]
  rfl

theorem ground_ofFloat (x : Float) : (ofFloat x).ground := by
  unfold ofFloat
  split <;> rfl

/-! ## What folding gives -/

/-- What an operator folds to: the undefined constant, a number or a collection. -/
inductive Folded : Expr → Prop
  | undefined : Folded .undefined
  | number (x : Float) : Folded (.number x)
  | collection (kind : CollectionKind) (es : List Expr) : Folded (.collection kind es)

theorem Folded.ofFloat (x : Float) : Folded (Expr.ofFloat x) := by
  unfold Expr.ofFloat
  split
  · exact .undefined
  · exact .number x

theorem folded_of_ground : ∀ {e : Expr}, e.ground → Folded e
  | .number x, _ => .number x
  | .constant kind, h => by
    have hk : kind = .undefined := by simpa [ground] using h
    subst hk
    exact .undefined
  | .collection kind es, _ => .collection kind es

theorem folded_of_foldUnary {side : Side} {op : UnaryOperator} {e r : Expr}
    (h : foldUnary? side op e = some r) : Folded r := by
  unfold foldUnary? at h
  split at h <;> cases h
  · exact .undefined
  · exact .ofFloat _
  · exact .collection _ _

/-- The ways in which a binary operator folds, each with what it asks of the operands. -/
inductive FoldsBinary (final : Bool) (op : BinaryOperator) : Expr → Expr → Expr → Prop
  | undefined {l r : Expr} : (l.isUndefined || r.isUndefined) = true →
      FoldsBinary final op l r .undefined
  | numbers (x y : Float) :
      FoldsBinary final op (.number x) (.number y) (.ofFloat (op.apply x y))
  | compared (kind kind' : CollectionKind) {ss ts : List Expr} {e : Expr} :
      op = .equal ∨ op = .notEqual → equality? ss op ts = some e →
      FoldsBinary final op (.collection kind ss) (.collection kind' ts) e
  | undecided (kind kind' : CollectionKind) {ss ts : List Expr} :
      op = .equal ∨ op = .notEqual → equality? ss op ts = none → final = true →
      FoldsBinary final op (.collection kind ss) (.collection kind' ts) .undefined
  | zip (kind kind' : CollectionKind) (ss ts : List Expr) : ¬(op = .equal ∨ op = .notEqual) →
      FoldsBinary final op (.collection kind ss) (.collection kind' ts) (.zip kind ss op ts)
  | unlikeLeft (kind : CollectionKind) (ss : List Expr) {scalar : Expr} :
      scalar.isScalar → scalar.isUndefined = false → op = .equal ∨ op = .notEqual →
      FoldsBinary final op (.collection kind ss) scalar (.ofFloat (Number.ofBool (op = .notEqual)))
  | left (kind : CollectionKind) (ss : List Expr) {scalar : Expr} :
      scalar.isScalar → scalar.isUndefined = false → ¬(op = .equal ∨ op = .notEqual) →
      FoldsBinary final op (.collection kind ss) scalar (broadcast kind ss op scalar .after)
  | unlikeRight (kind : CollectionKind) (ts : List Expr) {scalar : Expr} :
      scalar.isScalar → scalar.isUndefined = false → op = .equal ∨ op = .notEqual →
      FoldsBinary final op scalar (.collection kind ts) (.ofFloat (Number.ofBool (op = .notEqual)))
  | right (kind : CollectionKind) (ts : List Expr) {scalar : Expr} :
      scalar.isScalar → scalar.isUndefined = false → ¬(op = .equal ∨ op = .notEqual) →
      FoldsBinary final op scalar (.collection kind ts) (broadcast kind ts op scalar .before)

/-- `FoldsBinary` is the relation that folding a binary operator computes. -/
theorem foldBinary_iff {final : Bool} {l r e : Expr} {op : BinaryOperator} :
    foldBinary? final l op r = some e ↔ FoldsBinary final op l r e := by
  constructor
  · intro h
    unfold foldBinary? at h
    split at h
    · next hu => cases h; exact .undefined hu
    · next hu =>
      simp only [Bool.or_eq_true, not_or, Bool.not_eq_true] at hu
      dsimp only at h
      split at h
      · cases h; exact .numbers _ _
      · split at h
        · next ht =>
          split at h
          · next he => cases h; exact .compared _ _ ht he
          · next he =>
            split at h <;> cases h
            exact .undecided _ _ ht he ‹_›
        · next ht => cases h; exact .zip _ _ _ _ ht
      · split at h
        · cases h
        · next hs =>
          have hs : r.isScalar := by simpa using hs
          split at h <;> cases h
          · exact .unlikeLeft _ _ hs hu.2 ‹_›
          · exact .left _ _ hs hu.2 ‹_›
      · split at h
        · cases h
        · next hs =>
          have hs : l.isScalar := by simpa using hs
          split at h <;> cases h
          · exact .unlikeRight _ _ hs hu.1 ‹_›
          · exact .right _ _ hs hu.1 ‹_›
      · cases h
  · intro h
    unfold foldBinary?
    cases h with
    | undefined hu => exact if_pos hu
    | numbers => rfl
    | compared kind kind' ht he => simp [isUndefined, ht, he]
    | undecided kind kind' ht he hfinal => simp [isUndefined, ht, he, hfinal]
    | zip kind kind' ss ts ht => simp [isUndefined, ht]
    | unlikeLeft kind ss hs hu ht | left kind ss hs hu ht =>
      rw [hu]
      cases r with
      | number | constant => simp [isUndefined, isScalar, ht]
      | _ => cases hs
    | unlikeRight kind ts hs hu ht | right kind ts hs hu ht =>
      rw [hu]
      cases l with
      | number | constant => simp [isUndefined, isScalar, ht]
      | _ => cases hs

/-- What a binary operator folds its operands to: the undefined constant, a number, or a collection of
nodes over their elements. -/
inductive BinaryFold (op : BinaryOperator) : Expr → Expr → Expr → Prop
  | undefined (l r : Expr) : BinaryFold op l r .undefined
  | ofFloat (l r : Expr) (x : Float) : BinaryFold op l r (.ofFloat x)
  | zip (kind kind' : CollectionKind) (ss ts : List Expr) : ss.length = ts.length →
      BinaryFold op (.collection kind ss) (.collection kind' ts)
        (.collection kind (List.zipWith (fun l r => .binary l op r) ss ts))
  | left (kind : CollectionKind) (ss : List Expr) {scalar : Expr} : scalar.isScalar →
      BinaryFold op (.collection kind ss) scalar (broadcast kind ss op scalar .after)
  | right (kind : CollectionKind) (ts : List Expr) {scalar : Expr} : scalar.isScalar →
      BinaryFold op scalar (.collection kind ts) (broadcast kind ts op scalar .before)

/-- What a binary operator gives is one of the folds. -/
theorem binaryFold_of_foldBinary {final : Bool} {l r e : Expr} {op : BinaryOperator}
    (h : foldBinary? final l op r = some e) : BinaryFold op l r e := by
  cases foldBinary_iff.1 h with
  | undefined | undecided => exact .undefined _ _
  | numbers | unlikeLeft | unlikeRight => exact .ofFloat _ _ _
  | compared kind kind' _ he =>
    simp only [equality?, Option.map_eq_some_iff] at he
    obtain ⟨b, -, rfl⟩ := he
    exact .ofFloat _ _ _
  | zip kind kind' ss ts =>
    unfold Expr.zip
    split
    · next hlen => exact .zip _ _ _ _ hlen
    · exact .undefined _ _
  | left _ _ hs => exact .left _ _ hs
  | right _ _ hs => exact .right _ _ hs

theorem folded_of_foldBinary {final : Bool} {l r e : Expr} {op : BinaryOperator}
    (h : foldBinary? final l op r = some e) : Folded e := by
  cases binaryFold_of_foldBinary h with
  | undefined => exact .undefined
  | ofFloat => exact .ofFloat _
  | zip | left | right => exact .collection _ _

/-- Once nothing is left to be evaluated, a binary operator folds whatever folding gives. -/
theorem Folded.exists_foldBinary {l r : Expr} (op : BinaryOperator) (hl : Folded l) (hr : Folded r) :
    ∃ e, foldBinary? true l op r = some e := by
  simp only [foldBinary_iff]
  cases hl with
  | undefined => exact ⟨_, .undefined rfl⟩
  | number x =>
    cases hr with
    | undefined => exact ⟨_, .undefined rfl⟩
    | number y => exact ⟨_, .numbers x y⟩
    | collection kind ts =>
      by_cases ht : op = .equal ∨ op = .notEqual
      · exact ⟨_, .unlikeRight kind ts rfl rfl ht⟩
      · exact ⟨_, .right kind ts rfl rfl ht⟩
  | collection kind ss =>
    cases hr with
    | undefined => exact ⟨_, .undefined rfl⟩
    | number y =>
      by_cases ht : op = .equal ∨ op = .notEqual
      · exact ⟨_, .unlikeLeft kind ss rfl rfl ht⟩
      · exact ⟨_, .left kind ss rfl rfl ht⟩
    | collection kind' ts =>
      by_cases ht : op = .equal ∨ op = .notEqual
      · cases he : equality? ss op ts with
        | some e => exact ⟨e, .compared kind kind' ht he⟩
        | none => exact ⟨_, .undecided kind kind' ht he rfl⟩
      · exact ⟨_, .zip kind kind' ss ts ht⟩

/-! ## What folding keeps -/

/-- Properties of trees that results of number operations and the undefined constant have, that operators
hand on from their operands, and that collections hand on to their elements and get back from as many
others. -/
structure Inherited (P : Expr → Prop) : Prop where
  undefined : P .undefined
  ofFloat (x : Float) : P (.ofFloat x)
  unary {side : Side} {op : UnaryOperator} {e : Expr} : P e → P (.unary side op e)
  binary {l r : Expr} {op : BinaryOperator} : P l → P r → P (.binary l op r)
  elements {kind : CollectionKind} {es : List Expr} : P (.collection kind es) → ∀ e ∈ es, P e
  collection {kind : CollectionKind} {es fs : List Expr} : P (.collection kind es) →
    fs.length = es.length → (∀ f ∈ fs, P f) → P (.collection kind fs)

namespace Inherited

variable {P : Expr → Prop} (hP : Inherited P)
include hP

theorem foldUnary {side : Side} {op : UnaryOperator} {e r : Expr} (he : P e)
    (h : foldUnary? side op e = some r) : P r := by
  unfold foldUnary? at h
  split at h <;> cases h
  · exact hP.undefined
  · exact hP.ofFloat _
  · refine hP.collection he (List.length_map _) fun r hr => ?_
    obtain ⟨a, ha, rfl⟩ := List.mem_map.1 hr
    exact hP.unary (hP.elements he a ha)

theorem broadcast {kind : CollectionKind} {es : List Expr} {op : BinaryOperator} {scalar : Expr}
    (side : Side) (hes : P (.collection kind es)) (hs : P scalar) :
    P (broadcast kind es op scalar side) := by
  refine hP.collection hes (List.length_map _) fun r hr => ?_
  obtain ⟨a, ha, rfl⟩ := List.mem_map.1 hr
  have ha := hP.elements hes a ha
  cases side with
  | before => exact hP.binary hs ha
  | after => exact hP.binary ha hs

theorem foldBinary {final : Bool} {l r e : Expr} {op : BinaryOperator} (hl : P l) (hr : P r)
    (h : foldBinary? final l op r = some e) : P e := by
  cases binaryFold_of_foldBinary h with
  | undefined => exact hP.undefined
  | ofFloat => exact hP.ofFloat _
  | zip kind kind' ss ts hlen =>
    refine hP.collection hl (by simp [hlen]) fun e he => ?_
    obtain ⟨i, hi, rfl⟩ := List.mem_iff_getElem.1 he
    rw [List.getElem_zipWith]
    exact hP.binary (hP.elements hl _ (List.getElem_mem _)) (hP.elements hr _ (List.getElem_mem _))
  | left => exact hP.broadcast .after hl hr
  | right => exact hP.broadcast .before hr hl

end Inherited

/-! ## Trees without a further rewrite -/

section
variable {invoke : Invoke} {c : Context}

mutual

theorem inert_of_step_none : ∀ {e : Expr}, evaluateStep? invoke e c = none → e.inert
  | .number _, _ | .constant _, _ | .variable _, _ => rfl
  | .parens inner, h => by
    simp only [evaluateStep?] at h
    split at h <;> cases h
  | .unary _ _ operand, h => by
    simp only [evaluateStep?] at h
    split at h
    · cases h
    · next ho => exact inert_of_step_none (e := operand) ho
  | .binary left _ right, h => by
    simp only [evaluateStep?] at h
    split at h
    · cases h
    · next hl =>
      split at h
      · cases h
      · next hr => simp [inert, inert_of_step_none hl, inert_of_step_none hr]
  | .assign .., h => by
    simp only [evaluateStep?] at h
    split at h <;> cases h
  | .call .., h => by
    simp only [evaluateStep?] at h
    split at h <;> cases h
  | .collection _ elements, h => by
    simp only [evaluateStep?, Option.map_eq_none_iff] at h
    exact allInert_of_first_none h

theorem allInert_of_first_none : ∀ {es : List Expr}, evaluateFirst? invoke es c = none →
    allInert es
  | [], _ => rfl
  | e :: es, h => by
    simp only [evaluateFirst?] at h
    split at h
    · cases h
    · next he =>
      simp only [Option.map_eq_none_iff] at h
      simp [allInert, inert_of_step_none he, allInert_of_first_none h]

end

end

/-! ## A node is not what it is reduced to -/

theorem same_parens_self : ∀ e : Expr, same e (.parens e) = false
  | .parens e => same_parens_self e
  | .number _ | .constant _ | .variable _ | .unary .. | .binary .. | .assign .. | .call ..
  | .collection .. => rfl

theorem same_assign_self (target : String) : ∀ e : Expr, same e (.assign target e) = false
  | .assign t e => by simp [same, same_assign_self t e]
  | .number _ | .constant _ | .variable _ | .unary .. | .binary .. | .parens _ | .call ..
  | .collection .. => rfl

theorem Folded.same_unary {r e : Expr} {side : Side} {op : UnaryOperator} (h : Folded r) :
    same r (.unary side op e) = false := by
  cases h <;> rfl

theorem Folded.same_binary {r s t : Expr} {op : BinaryOperator} (h : Folded r) :
    same r (.binary s op t) = false := by
  cases h <;> rfl

theorem same_call_of_inert {r : Expr} {name : String} {args : List Expr} (h : r.inert) :
    same r (.call name args) = false := by
  cases r <;> first | rfl | cases h

end Formula.Expr
