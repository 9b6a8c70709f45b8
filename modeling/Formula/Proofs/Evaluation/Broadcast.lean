import Formula.Proofs.Evaluation.Counted

/-!
# Operators over values

Evaluation works an operator over values off one node at a time: it makes a collection of operators of an
operator over a collection, and goes on with the leftmost of them. What comes out is the operator applied
along the values (`BinaryOperator.onValues`, `UnaryOperator.onValues`): element by element where both
sides are collections, to every element with the same number where only one is, down to the numbers; only
`==` and `!=` compare collections as wholes (`Expr.equalValues?`).

The induction is on the size of both values together (`hasValue_binary`): a rewrite leaves operators over
values that are smaller on one side or on both.

**Main statement** (`evaluate_onValues`): in every context that allows enough rewrites an operator over
ground trees evaluates to the operator on values, and the context is as it was.
-/

set_option autoImplicit false

namespace Formula

/-! ## Operators on values -/

theorem Expr.sizeOf_element_lt (kind : CollectionKind) {es : List Expr} {e : Expr} (h : e ∈ es) :
    sizeOf e < sizeOf (Expr.collection kind es) := by
  have := List.sizeOf_lt_of_mem h
  rw [collection.sizeOf_spec]
  omega

theorem Expr.sizeOf_pair_lt (kind kind' : CollectionKind) {ss ts : List Expr} {s t : Expr}
    (h : (s, t) ∈ ss.zip ts) :
    sizeOf s + sizeOf t < sizeOf (Expr.collection kind ss) + sizeOf (Expr.collection kind' ts) :=
  have h := List.of_mem_zip h
  Nat.add_lt_add (sizeOf_element_lt kind h.1) (sizeOf_element_lt kind' h.2)

/-- Whether all of several comparisons hold. One that is open leaves it open. -/
def Expr.allHold? (results : List (Option Bool)) : Option Bool :=
  if none ∈ results then none else some (results.all (· == some true))

/-- Whether two values are equal: numbers as numbers, and collections if they are of one length and all
elements are equal, whatever the brackets. An undefined value leaves it open. -/
def Expr.equalValues? : Expr → Expr → Option Bool
  | .number x, .number y => some (x == y)
  | .collection _ ss, .collection _ ts =>
    if ss.length = ts.length then
      allHold? ((ss.zip ts).attach.map fun ⟨(s, t), _⟩ => s.equalValues? t)
    else some false
  | .number _, .collection .. | .collection .., .number _ => some false
  | _, _ => none
termination_by a b => sizeOf a + sizeOf b
decreasing_by exact sizeOf_pair_lt _ _ ‹_›

/-- A binary operator on values. -/
def BinaryOperator.onValues (op : BinaryOperator) : Expr → Expr → Expr
  | .number x, .number y => .ofFloat (op.apply x y)
  | .collection kind ss, .collection kind' ts =>
    if op = .equal ∨ op = .notEqual then
      match (Expr.collection kind ss).equalValues? (.collection kind' ts) with
      | some same => .number (if op = .equal ↔ same then 1 else 0)
      | none => .undefined
    else if ss.length = ts.length then
      .collection kind ((ss.zip ts).attach.map fun ⟨(s, t), _⟩ => op.onValues s t)
    else .undefined
  | .collection kind ss, .number y =>
    if op = .equal then .number 0
    else if op = .notEqual then .number 1
    else .collection kind (ss.map fun s => op.onValues s (.number y))
  | .number x, .collection kind ts =>
    if op = .equal then .number 0
    else if op = .notEqual then .number 1
    else .collection kind (ts.map fun t => op.onValues (.number x) t)
  | _, _ => .undefined
termination_by a b => sizeOf a + sizeOf b
decreasing_by
  · exact Expr.sizeOf_pair_lt _ _ ‹_›
  · exact Nat.add_lt_add_right (Expr.sizeOf_element_lt _ ‹_›) _
  · exact Nat.add_lt_add_left (Expr.sizeOf_element_lt _ ‹_›) _

/-- A unary operator on values. -/
def UnaryOperator.onValues (op : UnaryOperator) : Expr → Expr
  | .number x => .ofFloat (op.apply x)
  | .collection kind es => .collection kind (es.map fun e => op.onValues e)
  | _ => .undefined

namespace Expr

theorem equalValues_collection (kind kind' : CollectionKind) (ss ts : List Expr) :
    (collection kind ss).equalValues? (collection kind' ts) =
      if ss.length = ts.length then allHold? ((ss.zip ts).map fun p => p.1.equalValues? p.2)
      else some false := by
  rw [equalValues?, ← List.attach_map_val (f := fun p : Expr × Expr => p.1.equalValues? p.2)]

theorem onValues_collection (op : BinaryOperator) (kind kind' : CollectionKind) (ss ts : List Expr) :
    op.onValues (collection kind ss) (collection kind' ts) =
      if op = .equal ∨ op = .notEqual then
        match (collection kind ss).equalValues? (collection kind' ts) with
        | some same => number (if op = .equal ↔ same then 1 else 0)
        | none => undefined
      else if ss.length = ts.length then
        collection kind ((ss.zip ts).map fun p => op.onValues p.1 p.2)
      else undefined := by
  rw [BinaryOperator.onValues,
    ← List.attach_map_val (f := fun p : Expr × Expr => op.onValues p.1 p.2)]

/-! ## Comparing collections -/

theorem allHold_cons_none (results : List (Option Bool)) : allHold? (none :: results) = none :=
  if_pos List.mem_cons_self

theorem allHold_cons_some (holds : Bool) (results : List (Option Bool)) :
    allHold? (some holds :: results) = (allHold? results).map (holds && ·) := by
  unfold allHold?
  by_cases h : none ∈ results <;> simp [h]

theorem equalPairs_eq {ss ts : List Expr}
    (h : ∀ p ∈ ss.zip ts, equalElements? p.1 p.2 = p.1.equalValues? p.2) :
    equalPairs? ss ts = allHold? ((ss.zip ts).map fun p => p.1.equalValues? p.2) := by
  induction ss generalizing ts with
  | nil => simp [equalPairs?, allHold?]
  | cons s ss ih =>
    cases ts with
    | nil => simp [equalPairs?, allHold?]
    | cons t ts =>
      rw [List.zip_cons_cons, List.forall_mem_cons] at h
      rw [equalPairs?, h.1, ih h.2, List.zip_cons_cons, List.map_cons]
      cases hst : s.equalValues? t with
      | none => exact (allHold_cons_none _).symm
      | some same => exact (allHold_cons_some same _).symm

/-- Elements of collections are compared as values. -/
theorem equalElements_eq (a b : Expr) : equalElements? a b = a.equalValues? b := by
  induction hsize : sizeOf a + sizeOf b using Nat.strongRecOn generalizing a b with
  | ind size ih =>
    subst hsize
    unfold equalElements?
    split
    · rw [equalValues?]
    · next kind ss kind' ts =>
      rw [equalValues_collection, equalLists?, equalPairs_eq]
      exact fun p hp => ih _ (sizeOf_pair_lt kind kind' hp) p.1 p.2 rfl
    · rw [equalValues?]
    · rw [equalValues?]
    · rw [equalValues?] <;> assumption

/-! ## Ground trees are at rest -/

section
variable {invoke : Invoke} {c : Context}

mutual

theorem step_none_of_ground : ∀ {e : Expr}, e.ground → evaluateStep? invoke e c = none
  | .number _, _ => rfl
  | .constant kind, h => by
    have hk : kind = .undefined := by simpa [ground] using h
    subst hk
    rfl
  | .collection _ elements, h => by
    have h : allGround elements := h
    rw [evaluateStep?, first_none_of_allGround h, Option.map_none]

theorem first_none_of_allGround : ∀ {es : List Expr}, allGround es →
    evaluateFirst? invoke es c = none
  | [], _ => rfl
  | e :: es, h => by
    simp only [allGround, Bool.and_eq_true] at h
    simp only [evaluateFirst?, step_none_of_ground h.1, first_none_of_allGround h.2,
      Option.map_none]

end

mutual

theorem variableNames_of_ground : ∀ {e : Expr}, e.ground → e.variableNames = []
  | .number _, _ | .constant _, _ => rfl
  | .collection _ elements, h => allVariableNames_of_ground (show allGround elements from h)

theorem allVariableNames_of_ground : ∀ {es : List Expr}, allGround es → allVariableNames es = []
  | [], _ => rfl
  | e :: es, h => by
    simp only [allGround, Bool.and_eq_true] at h
    simp only [allVariableNames, variableNames_of_ground h.1, allVariableNames_of_ground h.2, List.append_nil]

end

end

/-! ## Operators over ground trees -/

/-- A tree that evaluates to `u` in the same number of rewrites in every context with local functions, and
changes none. -/
def FoldsTo (e u : Expr) : Prop :=
  ∃ n, ∀ c : Context, c.LocalFunctions → EvaluatesIn n e c u c

theorem foldsTo_self {e : Expr} (he : e.ground) : FoldsTo e e :=
  ⟨0, fun _ _ => .rest (step_none_of_ground he)⟩

theorem FoldsTo.of_step {e e' u : Expr}
    (h : ∀ c, evaluateStep? Context.invoke e c = some (e', c)) (he : FoldsTo e' u) : FoldsTo e u := by
  obtain ⟨n, hrun⟩ := he
  exact ⟨n + 1, fun c hc => .next hc (h c) (hrun c hc)⟩

/-- A collection evaluates to that of its elements' ground values. -/
theorem foldsTo_collection {kind : CollectionKind} {ps : List (Expr × Expr)}
    (h : ∀ p ∈ ps, FoldsTo p.1 p.2) (hground : ∀ p ∈ ps, p.2.ground) :
    FoldsTo (.collection kind (ps.map Prod.fst)) (.collection kind (ps.map Prod.snd)) := by
  have hlist : ∃ n, ∀ c : Context, c.LocalFunctions →
      EvaluateIn n (ps.map Prod.fst) c (ps.map Prod.snd) c := by
    clear hground
    induction ps with
    | nil => exact ⟨0, fun _ _ => .nil⟩
    | cons p ps ih =>
      rw [List.forall_mem_cons] at h
      obtain ⟨m, he⟩ := h.1
      obtain ⟨n, hes⟩ := ih h.2
      exact ⟨m + n, fun c hc => .cons (he c hc) (hes c hc)⟩
  have hus : ∀ u ∈ ps.map Prod.snd, u.ground := List.forall_mem_map.2 hground
  obtain ⟨n, hes⟩ := hlist
  refine ⟨n + 0, fun c hc => ?_⟩
  refine (listFrame_collection kind).evaluatesIn hc (hes c hc) (fun v hv => ?_)
    (.rest (step_none_of_ground (e := .collection kind _) (allGround_iff.2 hus)))
  exact variableNames_of_ground (hus v (List.dropLast_subset _ hv))

/-- The elements of a ground collection are ground and smaller. -/
theorem elements_of_ground {kind : CollectionKind} {es : List Expr}
    (h : (Expr.collection kind es).ground) {e : Expr} (he : e ∈ es) :
    e.ground ∧ sizeOf e < sizeOf (Expr.collection kind es) :=
  ⟨allGround_iff.1 h e he, sizeOf_element_lt kind he⟩

/-- The tree evaluates to the ground tree `u`. -/
structure HasValue (e u : Expr) : Prop where
  ground : u.ground
  foldsTo : FoldsTo e u

theorem hasValue_self {e : Expr} (he : e.ground) : HasValue e e :=
  ⟨he, foldsTo_self he⟩

theorem HasValue.of_step {e e' u : Expr}
    (h : ∀ c, evaluateStep? Context.invoke e c = some (e', c)) (he : HasValue e' u) : HasValue e u :=
  ⟨he.ground, he.foldsTo.of_step h⟩

/-- A collection has the collection of the values of its elements as its value. -/
theorem hasValue_map {α : Type} (kind : CollectionKind) {xs : List α} {f g : α → Expr}
    (h : ∀ x ∈ xs, HasValue (f x) (g x)) :
    HasValue (.collection kind (xs.map f)) (.collection kind (xs.map g)) where
  ground := allGround_iff.2 (List.forall_mem_map.2 fun x hx => (h x hx).ground)
  foldsTo := by
    have hfolds : FoldsTo (.collection kind ((xs.map fun x => (f x, g x)).map Prod.fst))
        (.collection kind ((xs.map fun x => (f x, g x)).map Prod.snd)) :=
      foldsTo_collection (List.forall_mem_map.2 fun x hx => (h x hx).foldsTo)
        (List.forall_mem_map.2 fun x hx => (h x hx).ground)
    rwa [List.map_map, List.map_map] at hfolds

/-- A unary operator over a ground tree has the operator on values as its value. -/
theorem hasValue_unary (side : Side) (op : UnaryOperator) {e : Expr} (he : e.ground) :
    HasValue (.unary side op e) (op.onValues e) := by
  induction hsize : sizeOf e using Nat.strongRecOn generalizing e with
  | ind size ih =>
    subst hsize
    have hstep : ∀ {r : Expr}, foldUnary? side op e = some r → ∀ c,
        evaluateStep? Context.invoke (.unary side op e) c = some (r, c) := fun hr c => by
      simp only [evaluateStep?, step_none_of_ground he, hr, Option.map_some]
    cases folded_of_ground he with
    | undefined =>
      simp only [UnaryOperator.onValues]
      exact .of_step (hstep rfl) (hasValue_self rfl)
    | number x =>
      rw [UnaryOperator.onValues]
      exact .of_step (hstep rfl) (hasValue_self (ground_ofFloat _))
    | collection kind es =>
      rw [UnaryOperator.onValues]
      refine .of_step (hstep rfl) (hasValue_map kind fun a ha => ?_)
      obtain ⟨hground, hlt⟩ := elements_of_ground he ha
      exact ih _ hlt hground rfl

/-! ## Binary operators -/

theorem ofFloat_ofBool (b : Bool) : ofFloat (Number.ofBool b) = number (if b then 1 else 0) := by
  cases b with
  | false => exact ofFloat_of_isNaN (x := 0) (by decide +kernel)
  | true => exact ofFloat_of_isNaN (x := 1) (by decide +kernel)

/-- What a binary operator over `a` and `b` folds to has the operator on values as its value. -/
def Spreads (op : BinaryOperator) (a b : Expr) : Prop :=
  ∃ r, foldBinary? true a op b = some r ∧ HasValue r (op.onValues a b)

section
variable {op : BinaryOperator}

theorem Spreads.hasValue {a b : Expr} (h : Spreads op a b) (ha : a.ground) (hb : b.ground) :
    HasValue (.binary a op b) (op.onValues a b) := by
  obtain ⟨r, hr, hvalue⟩ := h
  refine .of_step (fun c => ?_) hvalue
  simp only [evaluateStep?, step_none_of_ground ha, step_none_of_ground hb, hr, Option.map_some]

/-- An operator that folds to its value has nothing left to evaluate. -/
theorem spreads_of_value {a b r : Expr} (hr : r.ground) (hfold : foldBinary? true a op b = some r)
    (hvalue : op.onValues a b = r) : Spreads op a b := by
  subst hvalue
  exact ⟨_, hfold, hasValue_self hr⟩

/-- A collection next to a number is combined with it element by element, and is never equal to it. -/
theorem spreads_left (kind : CollectionKind) (ss : List Expr) (y : Float)
    (h : ∀ s ∈ ss, HasValue (.binary s op (number y)) (op.onValues s (number y))) :
    Spreads op (collection kind ss) (number y) := by
  by_cases hop : op = .equal ∨ op = .notEqual
  · refine spreads_of_value (ground_ofFloat _) (foldBinary_iff.2 (.unlikeLeft kind ss rfl rfl hop)) ?_
    rw [ofFloat_ofBool, BinaryOperator.onValues]
    obtain rfl | rfl := hop <;> simp
  · refine ⟨_, foldBinary_iff.2 (.left kind ss rfl rfl hop), ?_⟩
    rw [not_or] at hop
    rw [BinaryOperator.onValues, if_neg hop.1, if_neg hop.2]
    exact hasValue_map kind h

theorem spreads_right (x : Float) (kind : CollectionKind) (ts : List Expr)
    (h : ∀ t ∈ ts, HasValue (.binary (number x) op t) (op.onValues (number x) t)) :
    Spreads op (number x) (collection kind ts) := by
  by_cases hop : op = .equal ∨ op = .notEqual
  · refine spreads_of_value (ground_ofFloat _) (foldBinary_iff.2 (.unlikeRight kind ts rfl rfl hop)) ?_
    rw [ofFloat_ofBool, BinaryOperator.onValues]
    obtain rfl | rfl := hop <;> simp
  · refine ⟨_, foldBinary_iff.2 (.right kind ts rfl rfl hop), ?_⟩
    rw [not_or] at hop
    rw [BinaryOperator.onValues, if_neg hop.1, if_neg hop.2]
    exact hasValue_map kind h

/-- Collections are combined element by element if they have the same length; equality compares them as
wholes. -/
theorem spreads_zip (kind kind' : CollectionKind) (ss ts : List Expr)
    (h : ∀ p ∈ ss.zip ts, HasValue (.binary p.1 op p.2) (op.onValues p.1 p.2)) :
    Spreads op (collection kind ss) (collection kind' ts) := by
  by_cases hop : op = .equal ∨ op = .notEqual
  · have hequal : equalLists? ss ts = (collection kind ss).equalValues? (collection kind' ts) := by
      rw [← equalElements_eq, equalElements?]
    have hvalue := onValues_collection op kind kind' ss ts
    rw [if_pos hop] at hvalue
    cases hsame : (collection kind ss).equalValues? (collection kind' ts) with
    | none =>
      rw [hsame] at hequal hvalue
      refine spreads_of_value rfl (foldBinary_iff.2 (.undecided kind kind' hop ?_ rfl)) hvalue
      rw [equality?, hequal, Option.bind_none, Option.map_none]
    | some same =>
      rw [hsame] at hequal hvalue
      refine spreads_of_value rfl (foldBinary_iff.2 (.compared kind kind' hop ?_)) hvalue
      obtain rfl | rfl := hop <;> cases same <;>
        simp [equality?, hequal, BinaryOperator.ofEquality?, ofFloat_ofBool]
  · refine ⟨_, foldBinary_iff.2 (.zip kind kind' ss ts hop), ?_⟩
    rw [onValues_collection, if_neg hop, Expr.zip]
    split
    · rw [← List.map_uncurry_zip_eq_zipWith]
      exact hasValue_map kind h
    · exact hasValue_self rfl

end

/-- A binary operator over ground trees has the operator on values as its value. -/
theorem hasValue_binary (op : BinaryOperator) {a b : Expr} (ha : a.ground) (hb : b.ground) :
    HasValue (.binary a op b) (op.onValues a b) := by
  induction hsize : sizeOf a + sizeOf b using Nat.strongRecOn generalizing a b with
  | ind size ih =>
    subst hsize
    refine Spreads.hasValue ?_ ha hb
    cases folded_of_ground ha with
    | undefined => exact spreads_of_value rfl rfl (by simp only [BinaryOperator.onValues])
    | number x =>
      cases folded_of_ground hb with
      | undefined => exact spreads_of_value rfl rfl (by simp only [BinaryOperator.onValues])
      | number y => exact spreads_of_value (ground_ofFloat _) rfl (by rw [BinaryOperator.onValues])
      | collection kind ts =>
        refine spreads_right x kind ts fun t ht => ?_
        obtain ⟨hground, hlt⟩ := elements_of_ground hb ht
        exact ih _ (Nat.add_lt_add_left hlt _) ha hground rfl
    | collection kind ss =>
      cases folded_of_ground hb with
      | undefined => exact spreads_of_value rfl rfl (by simp only [BinaryOperator.onValues])
      | number y =>
        refine spreads_left kind ss y fun s hs => ?_
        obtain ⟨hground, hlt⟩ := elements_of_ground ha hs
        exact ih _ (Nat.add_lt_add_right hlt _) hground hb rfl
      | collection kind' ts =>
        refine spreads_zip kind kind' ss ts fun p hp => ?_
        obtain ⟨hs, ht⟩ := List.of_mem_zip hp
        exact ih _ (sizeOf_pair_lt kind kind' hp) (elements_of_ground ha hs).1
          (elements_of_ground hb ht).1 rfl

/-! ## Every context -/

section
variable {invoke : Invoke}

mutual

/-- Operators over values that hold no variables are rewritten in every context as in the empty one. -/
theorem step_of_leavesRest (c : Context) : ∀ {e : Expr}, e.LeavesRest .empty →
    evaluateStep? invoke e c = (evaluateStep? invoke e .empty).map fun p => (p.1, c)
  | .number _, _ => rfl
  | .constant _, h => by
    have hk : _ = none := h
    simp only [evaluateStep?, hk, Option.map_none]
  | .variable _, h => by cases h
  | .unary _ _ operand, h => by
    have ho := step_of_leavesRest c (e := operand) h
    simp only [evaluateStep?, ho]
    cases evaluateStep? invoke operand .empty <;> simp [Function.comp_def]
  | .binary left _ right, h => by
    have hl := step_of_leavesRest c (e := left) h.1
    have hr := step_of_leavesRest c (e := right) h.2
    simp only [evaluateStep?, hl, hr]
    cases evaluateStep? invoke left .empty <;> cases evaluateStep? invoke right .empty <;>
      simp [Function.comp_def]
  | .collection _ elements, h => by
    have hes : evaluateFirst? invoke elements c = _ := first_of_leavesRest c h
    simp only [evaluateStep?, hes]
    cases evaluateFirst? invoke elements .empty <;> simp
  | .parens _, h | .assign .., h | .call .., h => h.elim

theorem first_of_leavesRest (c : Context) : ∀ {es : List Expr}, AllLeavesRest .empty es →
    evaluateFirst? invoke es c = (evaluateFirst? invoke es .empty).map fun p => (p.1, c)
  | [], _ => rfl
  | e :: es, h => by
    have he := step_of_leavesRest c (e := e) h.1
    have hes := first_of_leavesRest c h.2
    simp only [evaluateFirst?, he, hes]
    cases evaluateStep? invoke e .empty <;> cases evaluateFirst? invoke es .empty <;> simp

end

end

/-- A run of operators over values that hold no variables is the same in every context. -/
theorem EvaluatesIn.everywhere {n : Nat} {e v : Expr} {b d : Context} (h : EvaluatesIn n e b v d)
    (hb : b = .empty) (he : e.LeavesRest .empty) (c : Context) : EvaluatesIn n e c v c := by
  induction h with
  | rest hs =>
    subst hb
    exact .rest (by rw [step_of_leavesRest c he, hs, Option.map_none])
  | equal hs hsame =>
    subst hb
    exact .equal (by rw [step_of_leavesRest c he, hs, Option.map_some]) hsame
  | next hs hsame _ ih =>
    subst hb
    obtain ⟨rfl, he'⟩ := leavesRest_of_step he hs
    exact SettlesIn.next (by rw [step_of_leavesRest c he, hs, Option.map_some]) hsame (ih rfl he')

/-- What folds to a tree does so in every context that allows enough rewrites. -/
theorem FoldsTo.evaluate {e u : Expr} (h : FoldsTo e u) (he : e.LeavesRest .empty) :
    ∃ n, ∀ c : Context, n ≤ c.maxIterations → e.evaluate c = (.ok u, c) := by
  obtain ⟨n, hrun⟩ := h
  have hempty : Context.empty.LocalFunctions := fun _ _ hf => by cases hf
  exact ⟨n, fun c hn => evaluate_of_evaluatesIn ((hrun .empty hempty).everywhere rfl he c) hn⟩

/-- **Operators spread over values.** Let `a` and `b` be made of numbers, the undefined constant and
collections. A binary operator over them, and a unary one over `a`, evaluate to the operator on values in
every context that allows enough rewrites, and leave the context as it is. -/
theorem evaluate_onValues {a b : Expr} (ha : a.ground) (hb : b.ground) :
    (∀ op : BinaryOperator, ∃ n, ∀ c : Context, n ≤ c.maxIterations →
      (Expr.binary a op b).evaluate c = (.ok (op.onValues a b), c)) ∧
    (∀ (side : Side) (op : UnaryOperator), ∃ n, ∀ c : Context, n ≤ c.maxIterations →
      (Expr.unary side op a).evaluate c = (.ok (op.onValues a), c)) := by
  have hrest : ∀ {e : Expr}, e.ground → e.LeavesRest .empty := fun he =>
    leavesRest_of_step_none (step_none_of_ground he)
  exact ⟨fun op => (hasValue_binary op ha hb).foldsTo.evaluate ⟨hrest ha, hrest hb⟩,
    fun side op => (hasValue_unary side op ha).foldsTo.evaluate (hrest (e := a) ha)⟩

/-- `[1, (2, 3)] - ([4, undefined], 5)`: a number meets a collection on the left, and one on the right. -/
theorem evaluate_onValues_nested :
    let a := collection .vector [.number 1, .collection .tuple [.number 2, .number 3]]
    let b := collection .tuple [.collection .vector [.number 4, .undefined], .number 5]
    (∃ n, ∀ c : Context, n ≤ c.maxIterations → (Expr.binary a .sub b).evaluate c =
      (.ok (.collection .vector [.collection .vector [.number (-3), .undefined],
        .collection .tuple [.number (-3), .number (-2)]]), c)) ∧
    (∃ n, ∀ c : Context, n ≤ c.maxIterations → (Expr.binary a .equal b).evaluate c =
      (.ok (.number 0), c)) := by
  intro a b
  have hnumber : ∀ {x z : Float}, x = z → z.isNaN = false → ofFloat x = .number z := by
    rintro x _ rfl hx
    exact ofFloat_of_isNaN hx
  have hfour : ofFloat (BinaryOperator.apply .sub 1 4) = .number (-3) :=
    hnumber (by decide +kernel) (by decide +kernel)
  have htwo : ofFloat (BinaryOperator.apply .sub 2 5) = .number (-3) :=
    hnumber (by decide +kernel) (by decide +kernel)
  have hthree : ofFloat (BinaryOperator.apply .sub 3 5) = .number (-2) :=
    hnumber (by decide +kernel) (by decide +kernel)
  have hsub : BinaryOperator.onValues .sub a b =
      .collection .vector [.collection .vector [.number (-3), .undefined],
        .collection .tuple [.number (-3), .number (-2)]] := by
    simp [a, b, onValues_collection, BinaryOperator.onValues, hfour, htwo, hthree]
  have hequal : BinaryOperator.onValues .equal a b = .number 0 := by
    simp [a, b, onValues_collection, equalValues?, allHold?]
  have h := (evaluate_onValues (a := a) (b := b) rfl rfl).1
  exact ⟨hsub ▸ h .sub, hequal ▸ h .equal⟩

end Expr

end Formula
