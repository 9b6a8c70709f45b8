import Formula.Proofs.Evaluation.Equality
import Formula.Proofs.Evaluation.Settles

/-!
# Simplification keeps the value

`settles_of_simplifyStep`: a symbolic rewrite leaves what the tree settles to as it is. Away from the
rewritten place this is the congruence of `Settles` (`Settles.atPlace`). At that place
(`SymbolicRedex.settles`) the operands are not yet evaluated, so each fold has to agree with the fold of
their values: a collection stays a collection of the same length, a number stays itself, and a constant
beside a collection becomes a number. `evaluate_simplify` is the statement about whole runs.
-/

set_option autoImplicit false

namespace Formula.Expr

section
variable {invoke : Invoke} {c : Context}

theorem Settles.collection_inv {kind : CollectionKind} {es : List Expr} {v : Expr}
    (h : Settles invoke c (.collection kind es) v) :
    ∃ vs, v = .collection kind vs ∧ SettlesAll invoke c es vs := by
  cases h with
  | collection hs => exact ⟨_, rfl, hs⟩

theorem Settles.number_inv {x : Float} {v : Expr} (h : Settles invoke c (.number x) v) :
    v = .number x := by
  cases h with
  | number => rfl

theorem Settles.undefined_inv {v : Expr} (h : Settles invoke c .undefined v) :
    v = .undefined := h.det .undefined

theorem SettlesAll.forall₂ {es vs : List Expr} (h : SettlesAll invoke c es vs) :
    List.Forall₂ (Settles invoke c) es vs := by
  induction es generalizing vs with
  | nil => cases h; exact .nil
  | cons e es ih => cases h with | cons he hes => exact .cons he (ih hes)

/-- A constant other than the undefined one settles to a number. -/
theorem Settles.scalar_inv {s v : Expr} (hs : s.isScalar) (hu : s.isUndefined = false)
    (h : Settles invoke c s v) : ∃ x, v = .number x := by
  cases s with
  | number x => exact ⟨x, h.number_inv⟩
  | constant kind =>
    cases h with
    | undefined => cases hu
    | @constant _ x _ hk hv =>
      have hx : x.isNaN = false := by
        cases kind <;> simp only [Constant.value?, Option.some.injEq, reduceCtorEq] at hk <;>
          subst hk <;> decide +kernel
      rw [ofFloat, hx] at hv
      exact ⟨x, hv.number_inv⟩
  | _ => cases hs

/-! ## Elements of collections -/

/-- An operator on elements can wait until they are settled. -/
theorem settlesAll_map_unary {side : Side} {op : UnaryOperator} {es vs ws : List Expr}
    (h : SettlesAll invoke c es vs) (hw : SettlesAll invoke c (vs.map (.unary side op)) ws) :
    SettlesAll invoke c (es.map (.unary side op)) ws := by
  induction es generalizing vs ws with
  | nil => cases h; exact hw
  | cons e es ih =>
    cases h with
    | cons he hes => cases hw with | cons hv hvs => exact .cons (he.unary_congr he.self hv) (ih hes hvs)

theorem settlesAll_zipWith {op : BinaryOperator} {ss ts vs ws us : List Expr}
    (hs : SettlesAll invoke c ss vs) (ht : SettlesAll invoke c ts ws)
    (hu : SettlesAll invoke c (List.zipWith (fun l r => .binary l op r) vs ws) us) :
    SettlesAll invoke c (List.zipWith (fun l r => .binary l op r) ss ts) us := by
  induction ss generalizing ts vs ws us with
  | nil => cases hs; exact hu
  | cons s ss ih =>
    cases hs with
    | cons hs hss =>
      cases ht with
      | nil => exact hu
      | cons ht hts =>
        cases hu with
        | cons hr hrs => exact .cons (hs.binary_congr hs.self ht ht.self hr) (ih hss hts hrs)

theorem settles_broadcast {kind : CollectionKind} {op : BinaryOperator} {side : Side}
    {es vs : List Expr} {s w v : Expr} (h : SettlesAll invoke c es vs) (hs : Settles invoke c s w)
    (hv : Settles invoke c (broadcast kind vs op w side) v) :
    Settles invoke c (broadcast kind es op s side) v := by
  obtain ⟨us, rfl, hu⟩ := hv.collection_inv
  refine .collection ?_
  clear hv
  induction es generalizing vs us with
  | nil => cases h; exact hu
  | cons e es ih =>
    cases h with
    | cons he hes =>
      cases hu with
      | cons hr hrs =>
        refine .cons ?_ (ih hes _ hrs)
        cases side with
        | before => exact hs.binary_congr hs.self he he.self hr
        | after => exact he.binary_congr he.self hs hs.self hr

/-! ## Decided comparisons stay decided -/

theorem keepsShape_settles : KeepsShape (Settles invoke c) where
  number h := h.number_inv
  collection h := by
    obtain ⟨vs, rfl, hvs⟩ := h.collection_inv
    exact ⟨vs, rfl, hvs.forall₂⟩

theorem equality_settled {ss ts vs ws : List Expr} {op : BinaryOperator} {e : Expr}
    (h : equality? ss op ts = some e) (hv : SettlesAll invoke c ss vs)
    (hw : SettlesAll invoke c ts ws) : equality? vs op ws = some e := by
  simp only [equality?, Option.map_eq_some_iff, Option.bind_eq_some_iff] at h ⊢
  obtain ⟨b, ⟨d, hd, hb⟩, he⟩ := h
  exact ⟨b, ⟨d, equalLists?_of_keepsShape keepsShape_settles hd hv.forall₂ hw.forall₂, hb⟩, he⟩

/-! ## Folds agree with the folds of the values -/

theorem isUndefined_settled {e v : Expr} (he : e.isUndefined) (h : Settles invoke c e v) :
    v = .undefined := by
  cases e with
  | constant kind =>
    cases kind with
    | undefined => exact h.undefined_inv
    | _ => cases he
  | _ => cases he

theorem foldUnary_settled {side : Side} {op : UnaryOperator} {e a r : Expr}
    (h : foldUnary? side op e = some r) (ha : Settles invoke c e a) :
    ∃ f, foldUnary? side op a = some f ∧ ∀ v, Settles invoke c f v → Settles invoke c r v := by
  unfold foldUnary? at h
  split at h <;> cases h
  · rw [ha.undefined_inv]
    exact ⟨_, rfl, fun _ hv => hv⟩
  · rw [ha.number_inv]
    exact ⟨_, rfl, fun _ hv => hv⟩
  · obtain ⟨vs, rfl, hvs⟩ := ha.collection_inv
    refine ⟨_, rfl, fun v hv => ?_⟩
    obtain ⟨us, rfl, hus⟩ := hv.collection_inv
    exact .collection (settlesAll_map_unary hvs hus)

theorem zip_settled {kind : CollectionKind} {op : BinaryOperator} {ss ts vs ws : List Expr}
    (hs : SettlesAll invoke c ss vs) (ht : SettlesAll invoke c ts ws) {v : Expr}
    (h : Settles invoke c (zip kind vs op ws) v) : Settles invoke c (zip kind ss op ts) v := by
  unfold zip at h ⊢
  rw [hs.forall₂.length_eq, ht.forall₂.length_eq]
  split at h
  · next hl =>
    rw [if_pos hl]
    obtain ⟨us, rfl, hus⟩ := h.collection_inv
    exact .collection (settlesAll_zipWith hs ht hus)
  · next hl => rw [if_neg hl]; exact h

/-- A binary operator that folds before its operands are settled also folds their values, and what that
gives settles to the same. -/
theorem foldBinary_settled {op : BinaryOperator} {l r a b e : Expr}
    (h : foldBinary? false l op r = some e) (ha : Settles invoke c l a)
    (hb : Settles invoke c r b) :
    ∃ f, foldBinary? true a op b = some f ∧ ∀ v, Settles invoke c f v → Settles invoke c e v := by
  simp only [foldBinary_iff]
  cases foldBinary_iff.1 h with
  | undefined hu =>
    refine ⟨_, .undefined ?_, fun _ hv => hv⟩
    rw [Bool.or_eq_true] at hu ⊢
    exact hu.imp (fun hl => isUndefined_settled hl ha ▸ rfl) (fun hr => isUndefined_settled hr hb ▸ rfl)
  | numbers x y =>
    rw [ha.number_inv, hb.number_inv]
    exact ⟨_, .numbers x y, fun _ hv => hv⟩
  | compared kind kind' ht he =>
    obtain ⟨vs, rfl, hvs⟩ := ha.collection_inv
    obtain ⟨ws, rfl, hws⟩ := hb.collection_inv
    exact ⟨_, .compared kind kind' ht (equality_settled he hvs hws), fun _ hv => hv⟩
  | undecided _ _ _ _ hfinal => cases hfinal
  | zip kind kind' ss ts ht =>
    obtain ⟨vs, rfl, hvs⟩ := ha.collection_inv
    obtain ⟨ws, rfl, hws⟩ := hb.collection_inv
    exact ⟨_, .zip kind kind' vs ws ht, fun _ hv => zip_settled hvs hws hv⟩
  | unlikeLeft kind ss hs hu ht =>
    obtain ⟨vs, rfl, -⟩ := ha.collection_inv
    obtain ⟨x, rfl⟩ := hb.scalar_inv hs hu
    exact ⟨_, .unlikeLeft kind vs rfl rfl ht, fun _ hv => hv⟩
  | left kind ss hs hu ht =>
    obtain ⟨vs, rfl, hvs⟩ := ha.collection_inv
    obtain ⟨x, rfl⟩ := hb.scalar_inv hs hu
    exact ⟨_, .left kind vs rfl rfl ht, fun _ hv => settles_broadcast hvs hb hv⟩
  | unlikeRight kind ts hs hu ht =>
    obtain ⟨ws, rfl, -⟩ := hb.collection_inv
    obtain ⟨x, rfl⟩ := ha.scalar_inv hs hu
    exact ⟨_, .unlikeRight kind ws rfl rfl ht, fun _ hv => hv⟩
  | right kind ts hs hu ht =>
    obtain ⟨ws, rfl, hws⟩ := hb.collection_inv
    obtain ⟨x, rfl⟩ := ha.scalar_inv hs hu
    exact ⟨_, .right kind ws rfl rfl ht, fun _ hv => settles_broadcast hws ha hv⟩

/-! ## Symbolic rewrites -/

theorem SymbolicRedex.settles {r r' v : Expr} (h : SymbolicRedex r r') (hv : Settles invoke c r v) :
    Settles invoke c r' v := by
  cases h with
  | parens => cases hv with | parens hv => exact hv
  | unary hf =>
    -- A node over settled operands folds as well, so it was not stuck.
    cases hv with
    | unaryStuck ha hstuck =>
      obtain ⟨f, hf', -⟩ := foldUnary_settled hf ha
      cases hstuck.symm.trans hf'
    | unaryFold ha hfold hv =>
      obtain ⟨f, hf', hr⟩ := foldUnary_settled hf ha
      cases hfold.symm.trans hf'
      exact hr _ hv
  | binary hf =>
    cases hv with
    | binaryStuck ha hb hstuck =>
      obtain ⟨f, hf', -⟩ := foldBinary_settled hf ha hb
      cases hstuck.symm.trans hf'
    | binaryFold ha hb hfold hv =>
      obtain ⟨f, hf', hr⟩ := foldBinary_settled hf ha hb
      cases hfold.symm.trans hf'
      exact hr _ hv

/-- A symbolic rewrite keeps what the tree settles to. -/
theorem settles_of_simplifyStep {e e' v : Expr} (h : simplifyStep? e = some e')
    (hv : Settles invoke c e v) : Settles invoke c e' v :=
  hv.atPlace SymbolicRedex.settles (atPlace_of_simplifyStep h)

/-- A run of symbolic rewrites keeps what the tree settles to. -/
theorem settles_of_simplify {e s v : Expr} (h : e.simplify = .ok s) (hv : Settles invoke c e v) :
    Settles invoke c s v := by
  have hstep : ∀ (a b : Expr) (x y : Unit), Settles invoke c a v →
      a.simplifyStep?.map (·, ()) = some (b, y) → Settles invoke c b v := by
    intro a b _ _ ha hab
    simp only [Option.map_eq_some_iff, Prod.mk.injEq, and_true] at hab
    obtain ⟨_, hab, rfl⟩ := hab
    exact settles_of_simplifyStep hab ha
  obtain ⟨_, hs⟩ := (settle_invariant (I := fun a _ => Settles invoke c a v) hstep hv).2 s h
  exact hs

end

/-- **Simplification keeps the value.** In a context that holds no assignment and only local
functions, a tree without assignments evaluates to the same tree before and after it is
simplified. -/
theorem evaluate_simplify {t s u w : Expr} {c : Context} (hc : c.ReadOnly) (ht : t.assignFree)
    (hs : t.simplify = .ok s) (hu : (t.evaluate c).1 = .ok u) (hw : (s.evaluate c).1 = .ok w) :
    w = u := by
  have htu := settles_of_evaluate hc ht hu
  have hsu := settles_of_simplify hs htu
  exact (settles_of_evaluate hc hsu.assignFree hw).det hsu

/-- In a context with `x = 4` and `half(y) = y / 2`, simplifying `half([x, 1 + 2] * 2)` to
`half([x * 2, 6])` keeps the value `[4, 3]`. -/
theorem evaluate_simplify_half :
    let c := (Context.empty.bindVariable "x" (.number 4)).bindFunction "half"
      (.expression ["y"] (.binary (.variable "y") .div (.number 2)))
    let t := call "half" [.binary (.collection .vector
      [.variable "x", .binary (.number 1) .add (.number 2)]) .mul (.number 2)]
    let s := call "half" [.collection .vector [.binary (.variable "x") .mul (.number 2), .number 6]]
    let u := collection .vector [.number 4, .number 3]
    t.simplify = .ok s ∧ (t.evaluate c).1 = .ok u ∧ (s.evaluate c).1 = .ok u ∧ u = u := by
  intro c t s u
  have hc : c.ReadOnly := by
    constructor
    · intro name v h
      simp only [c, Context.bindFunction, Context.bindVariable, Context.empty, Table.get?,
        Table.insert, Table.put, Table.lookup] at h
      split at h <;> cases h
      rfl
    · intro name f h
      simp only [c, Context.bindFunction, Context.bindVariable, Context.empty, Table.get?,
        Table.insert, Table.put, Table.lookup] at h
      split at h <;> cases h
      rfl
  have hs : t.simplify = .ok s := by rfl
  have hu : (t.evaluate c).1 = .ok u := by rfl
  have hw : (s.evaluate c).1 = .ok u := by rfl
  exact ⟨hs, hu, hw, evaluate_simplify hc rfl hs hu hw⟩

end Formula.Expr
