import Formula.Proofs.Evaluation.Shape

/-!
# The place of a rewrite

A rewrite replaces one subtree and leaves the tree around it as it is (`atPlace_of_step`,
`atPlace_of_simplifyStep`). What the replaced subtree can be and what takes its place is said once, by
`Redex` and for symbolic rewrites by `SymbolicRedex`. So every rewrite changes the tree it is applied to
(`same_of_step`, `same_of_simplifyStep`), and a run of rewrites ends only at a tree without a further one.
A property that passes from a tree to its operands and back (`Kept`) is kept by a rewrite if it is kept at
the place (`Kept.atPlace`). There it comes down to what variables stand for and what calls answer with
(`Kept.redex`), and symbolic rewrites always keep it (`Kept.simplifyStep`).
-/

set_option autoImplicit false

namespace Formula

namespace Expr

/-- One subtree is replaced by a tree to which it is related; around it nothing changes. -/
inductive AtPlace (R : Expr → Expr → Prop) : Expr → Expr → Prop
  | here {e e' : Expr} : R e e' → AtPlace R e e'
  | parens {e e' : Expr} : AtPlace R e e' → AtPlace R (.parens e) (.parens e')
  | unary (side : Side) (op : UnaryOperator) {e e' : Expr} : AtPlace R e e' →
      AtPlace R (.unary side op e) (.unary side op e')
  | left (op : BinaryOperator) (r : Expr) {l l' : Expr} : AtPlace R l l' →
      AtPlace R (.binary l op r) (.binary l' op r)
  | right (l : Expr) (op : BinaryOperator) {r r' : Expr} : AtPlace R r r' →
      AtPlace R (.binary l op r) (.binary l op r')
  | assign (target : String) {e e' : Expr} : AtPlace R e e' →
      AtPlace R (.assign target e) (.assign target e')
  | call (name : String) (before after : List Expr) {e e' : Expr} : AtPlace R e e' →
      AtPlace R (.call name (before ++ e :: after)) (.call name (before ++ e' :: after))
  | collection (kind : CollectionKind) (before after : List Expr) {e e' : Expr} : AtPlace R e e' →
      AtPlace R (.collection kind (before ++ e :: after)) (.collection kind (before ++ e' :: after))

/-- What a rewrite in the context `c` makes of the node that it reduces, and the context after it. -/
inductive Redex (invoke : Invoke) (c : Context) : Expr → Expr → Context → Prop
  | constant {kind : Constant} {x : Float} : kind.value? = some x →
      Redex invoke c (.constant kind) (.ofFloat x) c
  | variable {name : String} : same (c.lookup name) (.variable name) = false →
      Redex invoke c (.variable name) (c.lookup name) c
  | parens (e : Expr) : Redex invoke c (.parens e) e c
  | unary {side : Side} {op : UnaryOperator} {e r : Expr} : foldUnary? side op e = some r →
      Redex invoke c (.unary side op e) r c
  | binary {l r e : Expr} {op : BinaryOperator} : foldBinary? true l op r = some e →
      Redex invoke c (.binary l op r) e c
  | assign (target : String) (e : Expr) : Redex invoke c (.assign target e) e (c.bindVariable target e)
  | call (name : String) (args : List Expr) :
      Redex invoke c (.call name args) (invoke name args c).1 (invoke name args c).2

section
variable {invoke : Invoke} {c : Context}

mutual

/-- A rewrite reduces one node of the tree. -/
theorem atPlace_of_step : ∀ {e e' : Expr} {c' : Context}, evaluateStep? invoke e c = some (e', c') →
    AtPlace (fun r r' => Redex invoke c r r' c') e e'
  | .number _, _, _, h => by cases h
  | .constant kind, _, _, h => by
    simp only [evaluateStep?, Option.map_eq_some_iff, Prod.mk.injEq] at h
    obtain ⟨x, hx, rfl, rfl⟩ := h
    exact .here (.constant hx)
  | .variable name, _, _, h => by
    simp only [evaluateStep?] at h
    split at h
    · cases h
    · next hs => cases h; exact .here (.variable (by simpa using hs))
  | .parens inner, _, _, h => by
    simp only [evaluateStep?] at h
    split at h
    · next hi => cases h; exact .parens (atPlace_of_step hi)
    · cases h; exact .here (.parens inner)
  | .unary side op operand, _, _, h => by
    simp only [evaluateStep?] at h
    split at h
    · next ho => cases h; exact .unary side op (atPlace_of_step ho)
    · simp only [Option.map_eq_some_iff, Prod.mk.injEq] at h
      obtain ⟨r, hr, rfl, rfl⟩ := h
      exact .here (.unary hr)
  | .binary left op right, _, _, h => by
    simp only [evaluateStep?] at h
    split at h
    · next hl => cases h; exact .left op right (atPlace_of_step hl)
    · split at h
      · next hr => cases h; exact .right left op (atPlace_of_step hr)
      · simp only [Option.map_eq_some_iff, Prod.mk.injEq] at h
        obtain ⟨r, hr, rfl, rfl⟩ := h
        exact .here (.binary hr)
  | .assign target value, _, _, h => by
    simp only [evaluateStep?] at h
    split at h
    · next hv => cases h; exact .assign target (atPlace_of_step hv)
    · cases h; exact .here (.assign target value)
  | .call name args, _, _, h => by
    simp only [evaluateStep?] at h
    split at h
    · next ha =>
      cases h
      obtain ⟨before, e, e', after, rfl, rfl, he⟩ := atPlace_of_first ha
      exact .call name before after he
    · rw [Option.some.injEq] at h
      have hcall : Redex invoke c _ _ _ := .call name args
      rw [h] at hcall
      exact .here hcall
  | .collection kind elements, _, _, h => by
    simp only [evaluateStep?, Option.map_eq_some_iff, Prod.exists] at h
    obtain ⟨es, d, hes, h⟩ := h
    cases h
    obtain ⟨before, e, e', after, rfl, rfl, he⟩ := atPlace_of_first hes
    exact .collection kind before after he

/-- A rewrite in a list reduces one node of one of its trees. -/
theorem atPlace_of_first : ∀ {es es' : List Expr} {c' : Context},
    evaluateFirst? invoke es c = some (es', c') → ∃ before e e' after,
      es = before ++ e :: after ∧ es' = before ++ e' :: after ∧
        AtPlace (fun r r' => Redex invoke c r r' c') e e'
  | [], _, _, h => by cases h
  | e :: es, _, _, h => by
    simp only [evaluateFirst?] at h
    split at h
    · next e' d he =>
      cases h
      exact ⟨[], e, e', es, rfl, rfl, atPlace_of_step he⟩
    · simp only [Option.map_eq_some_iff, Prod.exists] at h
      obtain ⟨fs, d, hf, h⟩ := h
      cases h
      obtain ⟨before, x, x', after, rfl, rfl, hx⟩ := atPlace_of_first hf
      exact ⟨e :: before, x, x', after, rfl, rfl, hx⟩

end

end

/-- What a symbolic rewrite makes of the node that it reduces. -/
inductive SymbolicRedex : Expr → Expr → Prop
  | parens (e : Expr) : SymbolicRedex (.parens e) e
  | unary {side : Side} {op : UnaryOperator} {e r : Expr} : foldUnary? side op e = some r →
      SymbolicRedex (.unary side op e) r
  | binary {l r e : Expr} {op : BinaryOperator} : foldBinary? false l op r = some e →
      SymbolicRedex (.binary l op r) e

mutual

/-- A symbolic rewrite reduces one node of the tree. -/
theorem atPlace_of_simplifyStep : ∀ {e e' : Expr}, simplifyStep? e = some e' →
    AtPlace SymbolicRedex e e'
  | .number _, _, h | .constant _, _, h | .variable _, _, h => by cases h
  | .parens inner, _, h => by
    simp only [simplifyStep?] at h
    split at h
    · next hi => cases h; exact .parens (atPlace_of_simplifyStep hi)
    · split at h <;> cases h
      exact .here (.parens inner)
  | .unary side op operand, _, h => by
    simp only [simplifyStep?] at h
    split at h
    · next ho => cases h; exact .unary side op (atPlace_of_simplifyStep ho)
    · exact .here (.unary h)
  | .binary left op right, _, h => by
    simp only [simplifyStep?] at h
    split at h
    · next hl => cases h; exact .left op right (atPlace_of_simplifyStep hl)
    · split at h
      · next hr => cases h; exact .right left op (atPlace_of_simplifyStep hr)
      · exact .here (.binary h)
  | .assign target value, _, h => by
    simp only [simplifyStep?, Option.map_eq_some_iff] at h
    obtain ⟨v, hv, rfl⟩ := h
    exact .assign target (atPlace_of_simplifyStep hv)
  | .call name args, _, h => by
    simp only [simplifyStep?, Option.map_eq_some_iff] at h
    obtain ⟨as, ha, rfl⟩ := h
    obtain ⟨before, e, e', after, rfl, rfl, he⟩ := atPlace_of_simplifyFirst ha
    exact .call name before after he
  | .collection kind elements, _, h => by
    simp only [simplifyStep?, Option.map_eq_some_iff] at h
    obtain ⟨es, hes, rfl⟩ := h
    obtain ⟨before, e, e', after, rfl, rfl, he⟩ := atPlace_of_simplifyFirst hes
    exact .collection kind before after he

/-- A symbolic rewrite in a list reduces one node of one of its trees. -/
theorem atPlace_of_simplifyFirst : ∀ {es es' : List Expr}, simplifyFirst? es = some es' →
    ∃ before e e' after, es = before ++ e :: after ∧ es' = before ++ e' :: after ∧
      AtPlace SymbolicRedex e e'
  | [], _, h => by cases h
  | e :: es, _, h => by
    simp only [simplifyFirst?] at h
    split at h
    · next e' he =>
      cases h
      exact ⟨[], e, e', es, rfl, rfl, atPlace_of_simplifyStep he⟩
    · simp only [Option.map_eq_some_iff] at h
      obtain ⟨fs, hf, rfl⟩ := h
      obtain ⟨before, x, x', after, rfl, rfl, hx⟩ := atPlace_of_simplifyFirst hf
      exact ⟨e :: before, x, x', after, rfl, rfl, hx⟩

end

/-- Something is replaced, and only there. -/
theorem AtPlace.exists_redex {R : Expr → Expr → Prop} {e e' : Expr} (h : AtPlace R e e') :
    ∃ r r', R r r' ∧ AtPlace (fun s s' => s = r ∧ s' = r') e e' := by
  induction h with
  | here hr => exact ⟨_, _, hr, .here ⟨rfl, rfl⟩⟩
  | parens _ ih =>
    obtain ⟨r, r', hr, hat⟩ := ih
    exact ⟨r, r', hr, .parens hat⟩
  | unary side op _ ih =>
    obtain ⟨r, r', hr, hat⟩ := ih
    exact ⟨r, r', hr, .unary side op hat⟩
  | left op right _ ih =>
    obtain ⟨r, r', hr, hat⟩ := ih
    exact ⟨r, r', hr, .left op right hat⟩
  | right left op _ ih =>
    obtain ⟨r, r', hr, hat⟩ := ih
    exact ⟨r, r', hr, .right left op hat⟩
  | assign target _ ih =>
    obtain ⟨r, r', hr, hat⟩ := ih
    exact ⟨r, r', hr, .assign target hat⟩
  | call name before after _ ih =>
    obtain ⟨r, r', hr, hat⟩ := ih
    exact ⟨r, r', hr, .call name before after hat⟩
  | collection kind before after _ ih =>
    obtain ⟨r, r', hr, hat⟩ := ih
    exact ⟨r, r', hr, .collection kind before after hat⟩

/-! ## Rewrites change a tree -/

theorem sameAll_replace (before after : List Expr) {e e' : Expr} (h : same e' e = false) :
    sameAll (before ++ e' :: after) (before ++ e :: after) = false := by
  induction before with
  | nil => simp [sameAll, h]
  | cons b before ih => simp [sameAll, ih]

/-- A tree is another one when another one takes the place of a subtree. -/
theorem AtPlace.same_eq_false {R : Expr → Expr → Prop} (hR : ∀ {r r'}, R r r' → same r' r = false)
    {e e' : Expr} (h : AtPlace R e e') : same e' e = false := by
  induction h with
  | here hr => exact hR hr
  | parens _ ih => simpa only [same] using ih
  | unary | left | right | assign => simp [same, *]
  | call _ before after _ ih | collection _ before after _ ih =>
    simp [same, sameAll_replace before after ih]

theorem Redex.same_eq_false {invoke : Invoke} {c c' : Context} {r r' : Expr}
    (hinvoke : ∀ name args, (invoke name args c).1.inert) (h : Redex invoke c r r' c') :
    same r' r = false := by
  cases h with
  | constant hx =>
    unfold ofFloat
    split
    · -- the undefined constant itself has no value
      cases ‹Constant› <;> first | rfl | cases hx
    · rfl
  | «variable» hs => exact hs
  | parens => exact same_parens_self _
  | unary hf => exact (folded_of_foldUnary hf).same_unary
  | binary hf => exact (folded_of_foldBinary hf).same_binary
  | assign target => exact same_assign_self target _
  | call name args => exact same_call_of_inert (hinvoke name args)

/-- A rewrite gives another tree, as long as no call answers with a call. -/
theorem same_of_step {invoke : Invoke} {c c' : Context} {e e' : Expr}
    (hinvoke : ∀ name args, (invoke name args c).1.inert) (h : evaluateStep? invoke e c = some (e', c')) :
    same e' e = false :=
  (atPlace_of_step h).same_eq_false (Redex.same_eq_false hinvoke)

theorem SymbolicRedex.same_eq_false {r r' : Expr} (h : SymbolicRedex r r') : same r' r = false := by
  cases h with
  | parens => exact same_parens_self _
  | unary hf => exact (folded_of_foldUnary hf).same_unary
  | binary hf => exact (folded_of_foldBinary hf).same_binary

/-- A symbolic rewrite gives another tree. -/
theorem same_of_simplifyStep {e e' : Expr} (h : simplifyStep? e = some e') : same e' e = false :=
  (atPlace_of_simplifyStep h).same_eq_false SymbolicRedex.same_eq_false

/-! ## Properties that rewrites keep -/

/-- Properties that a tree hands on to its operands, and keeps when others that have them take their
places. -/
structure Kept (P : Expr → Prop) : Prop extends Inherited P where
  inner {e : Expr} : P (.parens e) → P e
  parens {e e' : Expr} : P (.parens e) → P e' → P (.parens e')
  operand {side : Side} {op : UnaryOperator} {e : Expr} : P (.unary side op e) → P e
  operands {l r : Expr} {op : BinaryOperator} : P (.binary l op r) → P l ∧ P r
  value {target : String} {e : Expr} : P (.assign target e) → P e
  assign {target : String} {e e' : Expr} : P (.assign target e) → P e' → P (.assign target e')
  args {name : String} {es : List Expr} : P (.call name es) → ∀ e ∈ es, P e
  call {name : String} {es fs : List Expr} : P (.call name es) → fs.length = es.length →
    (∀ f ∈ fs, P f) → P (.call name fs)

/-- A property of all elements of a list stays one when an element is replaced. -/
theorem forall_mem_replace {P : Expr → Prop} {before after : List Expr} {e e' : Expr}
    (h : ∀ a ∈ before ++ e :: after, P a) (he' : P e') : ∀ a ∈ before ++ e' :: after, P a := by
  rw [List.forall_mem_append, List.forall_mem_cons] at h ⊢
  exact ⟨h.1, he', h.2.2⟩

namespace Kept

variable {P : Expr → Prop} (hP : Kept P)
include hP

/-- A property that is kept where something is replaced is kept by the whole tree. What else follows from
the replacement (`Q`) can be concluded along with it. -/
theorem atPlace {Q : Prop} {R : Expr → Expr → Prop} (hR : ∀ {r r'}, P r → R r r' → Q ∧ P r')
    {e e' : Expr} (h : AtPlace R e e') (he : P e) : Q ∧ P e' := by
  induction h with
  | here hr => exact hR he hr
  | parens _ ih => exact (ih (hP.inner he)).imp_right (hP.parens he)
  | unary side op _ ih => exact (ih (hP.operand he)).imp_right hP.unary
  | left op r _ ih => exact (ih (hP.operands he).1).imp_right fun hl => hP.binary hl (hP.operands he).2
  | right l op _ ih => exact (ih (hP.operands he).2).imp_right (hP.binary (hP.operands he).1)
  | assign target _ ih => exact (ih (hP.value he)).imp_right (hP.assign he)
  | call name before after _ ih =>
    have hargs := hP.args he
    obtain ⟨hq, he'⟩ := ih (hargs _ (by simp))
    exact ⟨hq, hP.call he (by simp) (forall_mem_replace hargs he')⟩
  | collection kind before after _ ih =>
    have helements := hP.elements he
    obtain ⟨hq, he'⟩ := ih (helements _ (by simp))
    exact ⟨hq, hP.collection he (by simp) (forall_mem_replace helements he')⟩

/-- A property that variables stand for and calls answer with is kept where a rewrite takes place. -/
theorem redex {invoke : Invoke} {c c' : Context} {r r' : Expr}
    (hlookup : ∀ name, P (.variable name) → P (c.lookup name))
    (hinvoke : ∀ name args, P (.call name args) → P (invoke name args c).1)
    (h : Redex invoke c r r' c') (hr : P r) : P r' := by
  cases h with
  | constant => exact hP.ofFloat _
  | «variable» => exact hlookup _ hr
  | parens => exact hP.inner hr
  | unary hf => exact hP.foldUnary (hP.operand hr) hf
  | binary hf => exact hP.foldBinary (hP.operands hr).1 (hP.operands hr).2 hf
  | assign => exact hP.value hr
  | call name args => exact hinvoke name args hr

/-- Symbolic rewrites keep the property. -/
theorem simplifyStep {e e' : Expr} (he : P e) (h : simplifyStep? e = some e') : P e' := by
  refine (hP.atPlace (Q := True) (fun {r r'} hr hredex => ⟨trivial, ?_⟩)
    (atPlace_of_simplifyStep h) he).2
  cases hredex with
  | parens => exact hP.inner hr
  | unary hf => exact hP.foldUnary (hP.operand hr) hf
  | binary hf => exact hP.foldBinary (hP.operands hr).1 (hP.operands hr).2 hf

end Kept

end Expr

/-! ## Properties of all values of a context -/

namespace Context

variable {P : Expr → Prop} {c : Context}

/-- A variable stands for a value, for itself or for the undefined constant. -/
theorem lookup_of_values (h : ∀ x v, c.values.get? x = some v → P v) {name : String}
    (hself : c.hasFunction name → P (.variable name)) (hundefined : P .undefined) :
    P (c.lookup name) := by
  unfold lookup
  cases hv : c.values.get? name with
  | some v => exact h name v hv
  | none =>
    dsimp only
    split
    · next hf => exact hself hf
    · exact hundefined

theorem values_bindVariable (h : ∀ x v, c.values.get? x = some v → P v) (name : String) {value : Expr}
    (hvalue : P value) : ∀ x v, (c.bindVariable name value).values.get? x = some v → P v := by
  intro x v hv
  obtain ⟨-, rfl⟩ | hv := Table.get?_insert_eq_some hv
  · exact hvalue
  · exact h x v hv

end Context

end Formula
