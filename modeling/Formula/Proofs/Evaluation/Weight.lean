import Formula.Proofs.Evaluation.Places
import Formula.Proofs.Evaluation.Runs
import Mathlib.Logic.Function.Iterate

/-!
# Simplification converges

Spreading an operator over the elements of a collection makes a tree larger: there is an operator for
each element afterwards, and a copy of the scalar. So it is not the size that decreases. The weight of an
operator is a product of those of its operands, and the weight of a collection counts each element once
more: then an operator over a collection weighs more than the same operator over all of its elements
(`weight_lt_of_foldBinary`), and whatever stands around a node weighs less when the node does
(`AtPlace.weight_lt`). So every symbolic rewrite, wherever it takes place, makes a tree lighter, and
rewriting ends, at a tree in which no subtree can be rewritten (`simplify_converges`).
-/

set_option autoImplicit false

namespace Formula.Expr

mutual

/-- The weight of a tree (module doc). -/
def weight : Expr → Nat
  | .number _ | .constant _ | .variable _ => 2
  | .parens inner => inner.weight + 1
  | .unary _ _ operand => 2 * operand.weight
  | .binary left _ right => left.weight * right.weight + 1
  | .assign _ value => value.weight + 1
  | .call _ args => allWeights args + 2
  | .collection _ elements => allWeights elements + 2

/-- The weights of several trees, with one more for each. -/
def allWeights : List Expr → Nat
  | [] => 0
  | e :: es => e.weight + 1 + allWeights es

end

theorem two_le_weight (e : Expr) : 2 ≤ e.weight := by
  cases e with
  | number | constant | «variable» => exact Nat.le_refl 2
  | parens inner | assign _ inner => exact Nat.le_succ_of_le (two_le_weight inner)
  | unary _ _ operand =>
    have := two_le_weight operand
    rw [weight]
    omega
  | binary left _ right =>
    have hproduct := Nat.mul_le_mul (two_le_weight left) (two_le_weight right)
    rw [weight]
    omega
  | call _ es | collection _ es => exact Nat.le_add_left 2 (allWeights es)

theorem weight_ofFloat (x : Float) : (ofFloat x).weight = 2 := by
  unfold ofFloat
  split <;> rfl

theorem weight_of_isScalar {e : Expr} (h : e.isScalar) : e.weight = 2 := by
  cases e with
  | number | constant => rfl
  | _ => cases h

theorem allWeights_append (es fs : List Expr) :
    allWeights (es ++ fs) = allWeights es + allWeights fs := by
  induction es with
  | nil => rw [List.nil_append, allWeights, Nat.zero_add]
  | cons e es ih =>
    rw [List.cons_append, allWeights, allWeights, ih]
    omega

/-! ## Operators over elements -/

theorem allWeights_map_unary (side : Side) (op : UnaryOperator) (es : List Expr) :
    allWeights (es.map (.unary side op)) ≤ 2 * allWeights es := by
  induction es with
  | nil => exact Nat.le_refl 0
  | cons e es ih =>
    rw [List.map_cons, allWeights, allWeights, weight]
    omega

/-- Next to a scalar every element weighs twice as much, and one more. -/
theorem allWeights_map_binary {f : Expr → Expr} (hf : ∀ e, (f e).weight = 2 * e.weight + 1)
    (es : List Expr) : allWeights (es.map f) = 2 * allWeights es := by
  induction es with
  | nil => rfl
  | cons e es ih =>
    rw [List.map_cons, allWeights, allWeights, hf, ih]
    omega

theorem weight_broadcast (kind : CollectionKind) (es : List Expr) (op : BinaryOperator) {scalar : Expr}
    (hs : scalar.isScalar) (side : Side) :
    (broadcast kind es op scalar side).weight = 2 * allWeights es + 2 := by
  unfold broadcast
  rw [weight, allWeights_map_binary]
  intro e
  cases side with
  | before => rw [weight, weight_of_isScalar hs]
  | after => rw [weight, weight_of_isScalar hs, Nat.mul_comm]

theorem allWeights_zipWith (op : BinaryOperator) (ss ts : List Expr) :
    allWeights (List.zipWith (fun l r => .binary l op r) ss ts) ≤ allWeights ss * allWeights ts := by
  induction ss generalizing ts with
  | nil => simp [allWeights]
  | cons s ss ih =>
    cases ts with
    | nil => simp [allWeights]
    | cons t ts =>
      have hs := two_le_weight s
      have ht := two_le_weight t
      have hrest := ih ts
      rw [List.zipWith_cons_cons, allWeights, allWeights, allWeights, weight]
      calc s.weight * t.weight + 1 + 1 + allWeights (List.zipWith (fun l r => .binary l op r) ss ts)
        _ ≤ (s.weight * t.weight + s.weight + t.weight + 1) + allWeights ss * allWeights ts := by omega
        _ = (s.weight + 1) * (t.weight + 1) + allWeights ss * allWeights ts := by
          simp only [Nat.add_mul, Nat.mul_add]
          omega
        _ ≤ (s.weight + 1 + allWeights ss) * (t.weight + 1 + allWeights ts) := by
          generalize s.weight + 1 = x, t.weight + 1 = y
          simp only [Nat.add_mul, Nat.mul_add]
          omega

/-! ## Rewrites make a tree lighter -/

theorem weight_lt_of_foldUnary {side : Side} {op : UnaryOperator} {e r : Expr}
    (h : foldUnary? side op e = some r) : r.weight < (unary side op e).weight := by
  have he := two_le_weight e
  rw [weight]
  unfold foldUnary? at h
  split at h <;> cases h
  · rw [weight]
    omega
  · rw [weight_ofFloat]
    omega
  · next es =>
    have hmap := allWeights_map_unary side op es
    rw [weight, weight]
    omega

/-- What a binary operator folds to weighs less than the operator over its operands. -/
theorem weight_lt_of_foldBinary {final : Bool} {l r e : Expr} {op : BinaryOperator}
    (h : foldBinary? final l op r = some e) : e.weight < (binary l op r).weight := by
  have hproduct := Nat.mul_le_mul (two_le_weight l) (two_le_weight r)
  rw [weight.eq_6]
  cases binaryFold_of_foldBinary h with
  | undefined =>
    rw [weight]
    omega
  | ofFloat =>
    rw [weight_ofFloat]
    omega
  | zip kind kind' ss ts =>
    have hzip := allWeights_zipWith op ss ts
    simp only [weight, Nat.add_mul, Nat.mul_add]
    omega
  | left kind ss hs =>
    rw [weight_broadcast kind _ op hs, weight_of_isScalar hs, weight]
    omega
  | right kind ts hs =>
    rw [weight_broadcast kind _ op hs, weight_of_isScalar hs, weight]
    omega

/-- `[1, 2] + 3` and what it folds to, `[1 + 3, 2 + 3]`. -/
example : weight (.binary (.collection .vector [.number 1, .number 2]) .add (.number 3)) = 17 ∧
    weight (broadcast .vector [.number 1, .number 2] .add (.number 3) .after) = 14 := by decide

theorem SymbolicRedex.weight_lt {r r' : Expr} (h : SymbolicRedex r r') : r'.weight < r.weight := by
  cases h with
  | parens => exact Nat.lt_succ_self _
  | unary hf => exact weight_lt_of_foldUnary hf
  | binary hf => exact weight_lt_of_foldBinary hf

/-- A tree is lighter when a lighter one takes the place of a subtree. -/
theorem AtPlace.weight_lt {R : Expr → Expr → Prop} (hR : ∀ {r r'}, R r r' → r'.weight < r.weight)
    {e e' : Expr} (h : AtPlace R e e') : e'.weight < e.weight := by
  induction h with
  | here hr => exact hR hr
  | parens _ ih | assign _ _ ih => exact Nat.succ_lt_succ ih
  | unary _ _ _ ih => exact Nat.mul_lt_mul_of_pos_left ih (Nat.zero_lt_succ 1)
  | left op r _ ih =>
    have hr := two_le_weight r
    exact Nat.succ_lt_succ (Nat.mul_lt_mul_of_pos_right ih (by omega))
  | right l op _ ih =>
    have hl := two_le_weight l
    exact Nat.succ_lt_succ (Nat.mul_lt_mul_of_pos_left ih (by omega))
  | call _ _ _ _ ih | collection _ _ _ _ ih =>
    rw [weight, weight, allWeights_append, allWeights_append, allWeights, allWeights]
    omega

/-- A symbolic rewrite makes a tree lighter. -/
theorem weight_lt_of_simplifyStep {e e' : Expr} (h : simplifyStep? e = some e') :
    e'.weight < e.weight :=
  (atPlace_of_simplifyStep h).weight_lt SymbolicRedex.weight_lt

/-! ## Trees without a further rewrite -/

mutual

/-- A tree that cannot be rewritten has no subtree that can. -/
theorem simplifyStep_none_of_mem : ∀ {e : Expr}, simplifyStep? e = none →
    ∀ s ∈ e.subtrees, simplifyStep? s = none
  | .number _, h | .constant _, h | .variable _, h => by simpa [subtrees] using h
  | .parens inner, h => by
    rw [subtrees, List.forall_mem_cons]
    refine ⟨h, ?_⟩
    simp only [simplifyStep?] at h
    split at h
    · cases h
    · next hi => exact simplifyStep_none_of_mem hi
  | .unary _ _ operand, h => by
    rw [subtrees, List.forall_mem_cons]
    refine ⟨h, ?_⟩
    simp only [simplifyStep?] at h
    split at h
    · cases h
    · next ho => exact simplifyStep_none_of_mem ho
  | .binary left _ right, h => by
    rw [subtrees, List.forall_mem_cons, List.forall_mem_append]
    refine ⟨h, ?_⟩
    simp only [simplifyStep?] at h
    split at h
    · cases h
    · next hl =>
      split at h
      · cases h
      · next hr => exact ⟨simplifyStep_none_of_mem hl, simplifyStep_none_of_mem hr⟩
  | .assign _ value, h => by
    rw [subtrees, List.forall_mem_cons]
    refine ⟨h, ?_⟩
    simp only [simplifyStep?, Option.map_eq_none_iff] at h
    exact simplifyStep_none_of_mem h
  | .call _ args, h => by
    rw [subtrees, List.forall_mem_cons]
    refine ⟨h, ?_⟩
    simp only [simplifyStep?, Option.map_eq_none_iff] at h
    exact simplifyStep_none_of_mem_all h
  | .collection _ elements, h => by
    rw [subtrees, List.forall_mem_cons]
    refine ⟨h, ?_⟩
    simp only [simplifyStep?, Option.map_eq_none_iff] at h
    exact simplifyStep_none_of_mem_all h

theorem simplifyStep_none_of_mem_all : ∀ {es : List Expr}, simplifyFirst? es = none →
    ∀ s ∈ allSubtrees es, simplifyStep? s = none
  | [], _ => fun _ hs => absurd hs List.not_mem_nil
  | e :: es, h => by
    rw [allSubtrees, List.forall_mem_append]
    simp only [simplifyFirst?] at h
    split at h
    · cases h
    · next he =>
      rw [Option.map_eq_none_iff] at h
      exact ⟨simplifyStep_none_of_mem he, simplifyStep_none_of_mem_all h⟩

end

/-! ## The chain of rewrites -/

theorem simplifyStep_of_some {e e' : Expr} (h : simplifyStep? e = some e') : e.simplifyStep = e' := by
  rw [simplifyStep, h, Option.getD_some]

theorem simplifyStep_of_none {e : Expr} (h : simplifyStep? e = none) : e.simplifyStep = e := by
  rw [simplifyStep, h, Option.getD_none]

/-- A number of rewrites, each to another tree, are the first trees of the chain. -/
theorem iterate_of_rewritesIn {n : Nat} {t v : Expr} {x y : Unit}
    (h : RewritesIn same (fun e (_ : Unit) => e.simplifyStep?.map (·, ())) n t x v y) :
    simplifyStep^[n] t = v ∧
      ∀ k < n, (simplifyStep^[k] t).simplifyStep? = some (simplifyStep^[k + 1] t) := by
  induction h with
  | here => exact ⟨rfl, fun _ hk => absurd hk (Nat.not_lt_zero _)⟩
  | @next n a b v _ _ _ hs _ _ ih =>
    obtain ⟨b', hb, hpair⟩ := Option.map_eq_some_iff.1 hs
    obtain rfl : b' = b := congrArg Prod.fst hpair
    obtain ⟨hlast, hchain⟩ := ih
    rw [← simplifyStep_of_some hb] at hlast hchain
    refine ⟨hlast, fun k hk => ?_⟩
    cases k with
    | zero => rw [Function.iterate_one, simplifyStep_of_some hb]; exact hb
    | succ k => exact hchain k (Nat.lt_of_succ_lt_succ hk)

/-- A tree without a rewrite is simplified to itself. -/
theorem simplify_of_step_none {e : Expr} (h : simplifyStep? e = none) : e.simplify = .ok e := by
  unfold simplify settle
  rw [h]
  rfl

/-- **Simplification converges.** From every tree `t` a chain of finitely many rewrites, each to another
tree, leads to a tree in which no subtree can be rewritten, and there the chain stays. To simplify `t` gives
that tree, if the number of rewrites is within the limit, and otherwise fails with the tree that as many
rewrites as the limit allows lead to. So what a simplification gives is simplified to itself. -/
theorem simplify_converges (t : Expr) : ∃ n,
    (∀ k < n, (simplifyStep^[k] t).simplifyStep? = some (simplifyStep^[k + 1] t) ∧
      same (simplifyStep^[k + 1] t) (simplifyStep^[k] t) = false) ∧
    (∀ s ∈ (simplifyStep^[n] t).subtrees, s.simplifyStep? = none) ∧
    (∀ k, n ≤ k → simplifyStep^[k] t = simplifyStep^[n] t) ∧
    t.simplify = (if n ≤ defaultMaxIterations then .ok (simplifyStep^[n] t)
      else .error ⟨defaultMaxIterations, simplifyStep^[defaultMaxIterations] t⟩) ∧
    ∀ s, t.simplify = .ok s → s.simplify = .ok s := by
  have hstep : ∀ (a b : Expr) (x y : Unit), a.simplifyStep?.map (·, ()) = some (b, y) →
      same b a = false ∧ b.weight < a.weight := by
    intro a b _ _ h
    obtain ⟨_, hb, hpair⟩ := Option.map_eq_some_iff.1 h
    cases hpair
    exact ⟨same_of_simplifyStep hb, weight_lt_of_simplifyStep hb⟩
  obtain ⟨n, v, _, hrun, hend⟩ := exists_rewritesIn hstep t ()
  obtain ⟨rfl, hchain⟩ := iterate_of_rewritesIn hrun
  have hrest : (simplifyStep^[n] t).simplifyStep? = none := Option.map_eq_none_iff.1 hend
  have hresult : t.simplify = (if n ≤ defaultMaxIterations then .ok (simplifyStep^[n] t)
      else .error ⟨defaultMaxIterations, simplifyStep^[defaultMaxIterations] t⟩) := by
    obtain ⟨hle, hok⟩ | ⟨hlt, b, _, hfirst, herror⟩ :=
      settle_of_rewritesIn hrun hend defaultMaxIterations defaultMaxIterations
    · rw [if_pos hle, simplify, hok]
    · rw [if_neg (Nat.not_le_of_lt hlt), (iterate_of_rewritesIn hfirst).1]
      exact herror
  refine ⟨n, fun k hk => ⟨hchain k hk, same_of_simplifyStep (hchain k hk)⟩,
    simplifyStep_none_of_mem hrest, fun k hk => ?_, hresult, fun s hs => ?_⟩
  · obtain ⟨m, rfl⟩ := Nat.exists_eq_add_of_le' hk
    rw [Function.iterate_add_apply, Function.iterate_fixed (simplifyStep_of_none hrest)]
  · rw [hresult] at hs
    split at hs <;> cases hs
    exact simplify_of_step_none hrest

end Formula.Expr
