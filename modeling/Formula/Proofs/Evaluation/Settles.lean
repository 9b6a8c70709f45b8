import Formula.Proofs.Evaluation.Calls

/-!
# Evaluation in one go

`Settles invoke c e v`: in the context `c`, which nothing changes, the tree `e` evaluates to `v`. The
relation follows the tree: operands settle first, then the operator folds them, and what it gives
settles in turn; an operator that does not fold stays over its settled operands.

* `Settles.det`: a tree settles to one tree at most; `Settles.self`: and that one settles to itself.
* `settles_of_step`: a rewrite can be put in front, so runs of rewrites settle (`settles_of_evaluate`).
* `Settles.unary_congr`, `Settles.binary_congr`: an operand can be settled beforehand.
* `Settles.atPlace`: a subtree can be replaced by one that settles to the same.
-/

set_option autoImplicit false

namespace Formula

namespace Expr

mutual

/-- Evaluation of a tree in a context that nothing changes (module doc). -/
inductive Settles (invoke : Invoke) (c : Context) : Expr → Expr → Prop
  | number (x : Float) : Settles invoke c (.number x) (.number x)
  | undefined : Settles invoke c .undefined .undefined
  | constant {kind : Constant} {x : Float} {v : Expr} : kind.value? = some x →
      Settles invoke c (.ofFloat x) v → Settles invoke c (.constant kind) v
  | unbound {name : String} : same (c.lookup name) (.variable name) →
      Settles invoke c (.variable name) (.variable name)
  | variable {name : String} {v : Expr} : same (c.lookup name) (.variable name) = false →
      Settles invoke c (c.lookup name) v → Settles invoke c (.variable name) v
  | parens {e v : Expr} : Settles invoke c e v → Settles invoke c (.parens e) v
  | unaryStuck {side : Side} {op : UnaryOperator} {e a : Expr} : Settles invoke c e a →
      foldUnary? side op a = none → Settles invoke c (.unary side op e) (.unary side op a)
  | unaryFold {side : Side} {op : UnaryOperator} {e a r v : Expr} : Settles invoke c e a →
      foldUnary? side op a = some r → Settles invoke c r v → Settles invoke c (.unary side op e) v
  | binaryStuck {op : BinaryOperator} {l r a b : Expr} : Settles invoke c l a →
      Settles invoke c r b → foldBinary? true a op b = none →
      Settles invoke c (.binary l op r) (.binary a op b)
  | binaryFold {op : BinaryOperator} {l r a b f v : Expr} : Settles invoke c l a →
      Settles invoke c r b → foldBinary? true a op b = some f → Settles invoke c f v →
      Settles invoke c (.binary l op r) v
  | call {name : String} {args vs : List Expr} {v : Expr} : SettlesAll invoke c args vs →
      Settles invoke c (invoke name vs c).1 v → Settles invoke c (.call name args) v
  | collection {kind : CollectionKind} {es vs : List Expr} : SettlesAll invoke c es vs →
      Settles invoke c (.collection kind es) (.collection kind vs)

/-- Evaluation of several trees, one by one. -/
inductive SettlesAll (invoke : Invoke) (c : Context) : List Expr → List Expr → Prop
  | nil : SettlesAll invoke c [] []
  | cons {e v : Expr} {es vs : List Expr} : Settles invoke c e v → SettlesAll invoke c es vs →
      SettlesAll invoke c (e :: es) (v :: vs)

end

section
variable {invoke : Invoke} {c : Context}

/-! ## One result, and it is final -/

mutual

theorem Settles.det : ∀ {e v w : Expr}, Settles invoke c e v → Settles invoke c e w → v = w
  | _, _, _, .number _, h => by cases h; rfl
  | _, _, _, .undefined, h => by
    cases h with
    | undefined => rfl
    | constant hk _ => cases hk
  | _, _, _, .constant hk hv, h => by
    cases h with
    | undefined => cases hk
    | constant hk' hw =>
      rw [hk] at hk'
      cases hk'
      exact hv.det hw
  | _, _, _, .unbound hs, h => by
    cases h with
    | unbound _ => rfl
    | «variable» hs' _ => rw [hs] at hs'; cases hs'
  | _, _, _, .variable hs hv, h => by
    cases h with
    | unbound hs' => rw [hs] at hs'; cases hs'
    | «variable» _ hw => exact hv.det hw
  | _, _, _, .parens hv, h => by
    cases h with
    | parens hw => exact hv.det hw
  | _, _, _, .unaryStuck ha hf, h => by
    cases h with
    | unaryStuck ha' _ => rw [ha.det ha']
    | unaryFold ha' hf' _ => rw [ha.det ha', hf'] at hf; cases hf
  | _, _, _, .unaryFold ha hf hv, h => by
    cases h with
    | unaryStuck ha' hf' => rw [ha.det ha', hf'] at hf; cases hf
    | unaryFold ha' hf' hw =>
      rw [ha.det ha', hf'] at hf
      cases hf
      exact hv.det hw
  | _, _, _, .binaryStuck ha hb hf, h => by
    cases h with
    | binaryStuck ha' hb' _ => rw [ha.det ha', hb.det hb']
    | binaryFold ha' hb' hf' _ => rw [ha.det ha', hb.det hb', hf'] at hf; cases hf
  | _, _, _, .binaryFold ha hb hf hv, h => by
    cases h with
    | binaryStuck ha' hb' hf' => rw [ha.det ha', hb.det hb', hf'] at hf; cases hf
    | binaryFold ha' hb' hf' hw =>
      rw [ha.det ha', hb.det hb', hf'] at hf
      cases hf
      exact hv.det hw
  | _, _, _, .call ha hv, h => by
    cases h with
    | call ha' hw =>
      cases ha.det ha'
      exact hv.det hw
  | _, _, _, .collection hs, h => by
    cases h with
    | collection hs' => rw [hs.det hs']

theorem SettlesAll.det : ∀ {es vs ws : List Expr}, SettlesAll invoke c es vs →
    SettlesAll invoke c es ws → vs = ws
  | _, _, _, .nil, h => by cases h; rfl
  | _, _, _, .cons hv hvs, h => by
    cases h with
    | cons hw hws => rw [hv.det hw, hvs.det hws]

end

mutual

theorem Settles.self : ∀ {e v : Expr}, Settles invoke c e v → Settles invoke c v v
  | _, _, .number x => .number x
  | _, _, .undefined => .undefined
  | _, _, .constant _ hv => hv.self
  | _, _, .unbound hs => .unbound hs
  | _, _, .variable _ hv => hv.self
  | _, _, .parens hv => hv.self
  | _, _, .unaryStuck ha hf => .unaryStuck ha.self hf
  | _, _, .unaryFold _ _ hv => hv.self
  | _, _, .binaryStuck ha hb hf => .binaryStuck ha.self hb.self hf
  | _, _, .binaryFold _ _ _ hv => hv.self
  | _, _, .call _ hv => hv.self
  | _, _, .collection hs => .collection hs.self

theorem SettlesAll.self : ∀ {es vs : List Expr}, SettlesAll invoke c es vs →
    SettlesAll invoke c vs vs
  | _, _, .nil => .nil
  | _, _, .cons hv hvs => .cons hv.self hvs.self

end

mutual

/-- What evaluates without changing the context holds no assignment. -/
theorem Settles.assignFree : ∀ {e v : Expr}, Settles invoke c e v → e.assignFree
  | _, _, .number _ | _, _, .undefined | _, _, .constant .. | _, _, .unbound _
  | _, _, .variable .. => rfl
  | _, _, .parens hv => hv.assignFree
  | _, _, .unaryStuck ha _ | _, _, .unaryFold ha _ _ => ha.assignFree
  | _, _, .binaryStuck ha hb _ | _, _, .binaryFold ha hb _ _ => by
    simp [Expr.assignFree, ha.assignFree, hb.assignFree]
  | _, _, .call ha _ => ha.assignFree
  | _, _, .collection hs => hs.assignFree

theorem SettlesAll.assignFree : ∀ {es vs : List Expr}, SettlesAll invoke c es vs →
    allAssignFree es
  | _, _, .nil => rfl
  | _, _, .cons hv hvs => by simp [allAssignFree, hv.assignFree, hvs.assignFree]

end

/-! ## Operands settled beforehand -/

theorem Settles.unary_congr {side : Side} {op : UnaryOperator} {e e' a v : Expr}
    (h : Settles invoke c e a) (h' : Settles invoke c e' a)
    (hv : Settles invoke c (.unary side op e') v) : Settles invoke c (.unary side op e) v := by
  cases hv with
  | unaryStuck ha hf => cases h'.det ha; exact .unaryStuck h hf
  | unaryFold ha hf hr => cases h'.det ha; exact .unaryFold h hf hr

theorem Settles.binary_congr {op : BinaryOperator} {l l' r r' a b v : Expr}
    (hl : Settles invoke c l a) (hl' : Settles invoke c l' a)
    (hr : Settles invoke c r b) (hr' : Settles invoke c r' b)
    (hv : Settles invoke c (.binary l' op r') v) : Settles invoke c (.binary l op r) v := by
  cases hv with
  | binaryStuck ha hb hf =>
    cases hl'.det ha
    cases hr'.det hb
    exact .binaryStuck hl hr hf
  | binaryFold ha hb hf hw =>
    cases hl'.det ha
    cases hr'.det hb
    exact .binaryFold hl hr hf hw

/-! ## Subtrees that settle to the same -/

theorem SettlesAll.replace {before after vs : List Expr} {e e' : Expr}
    (he : ∀ {v}, Settles invoke c e v → Settles invoke c e' v)
    (h : SettlesAll invoke c (before ++ e :: after) vs) :
    SettlesAll invoke c (before ++ e' :: after) vs := by
  induction before generalizing vs with
  | nil => cases h with | cons hv hvs => exact .cons (he hv) hvs
  | cons b before ih => cases h with | cons hb hvs => exact .cons hb (ih hvs)

/-- A tree settles to what it settled to when a subtree is replaced by one that settles to the same. -/
theorem Settles.atPlace {R : Expr → Expr → Prop}
    (hR : ∀ {r r' v}, R r r' → Settles invoke c r v → Settles invoke c r' v) {e e' v : Expr}
    (h : AtPlace R e e') (hv : Settles invoke c e v) : Settles invoke c e' v := by
  induction h generalizing v with
  | here hr => exact hR hr hv
  | parens _ ih => cases hv with | parens hv => exact .parens (ih hv)
  | unary _ _ _ ih =>
    cases hv with
    | unaryStuck ha hf => exact .unaryStuck (ih ha) hf
    | unaryFold ha hf hv => exact .unaryFold (ih ha) hf hv
  | left _ _ _ ih =>
    cases hv with
    | binaryStuck ha hb hf => exact .binaryStuck (ih ha) hb hf
    | binaryFold ha hb hf hv => exact .binaryFold (ih ha) hb hf hv
  | right _ _ _ ih =>
    cases hv with
    | binaryStuck ha hb hf => exact .binaryStuck ha (ih hb) hf
    | binaryFold ha hb hf hv => exact .binaryFold ha (ih hb) hf hv
  | assign => cases hv
  | call _ _ _ _ ih => cases hv with | call hvs hv => exact .call (hvs.replace ih) hv
  | collection _ _ _ _ ih => cases hv with | collection hvs => exact .collection (hvs.replace ih)

end

/-! ## Runs settle -/

section
variable {invoke : Invoke} {c : Context}

mutual

theorem settles_of_step_none : ∀ {e : Expr}, evaluateStep? invoke e c = none → Settles invoke c e e
  | .number x, _ => .number x
  | .constant kind, h => by
    simp only [evaluateStep?, Option.map_eq_none_iff] at h
    cases kind <;> first | exact .undefined | cases h
  | .variable name, h => by
    simp only [evaluateStep?] at h
    split at h
    · next hs => exact .unbound hs
    · cases h
  | .parens _, h | .assign .., h | .call .., h => by
    have hi := inert_of_step_none h
    cases hi
  | .unary .., h => by
    simp only [evaluateStep?] at h
    split at h
    · cases h
    · next ho => exact .unaryStuck (settles_of_step_none ho) (by simpa using h)
  | .binary .., h => by
    simp only [evaluateStep?] at h
    split at h
    · cases h
    · next hl =>
      split at h
      · cases h
      · next hr =>
        exact .binaryStuck (settles_of_step_none hl) (settles_of_step_none hr) (by simpa using h)
  | .collection .., h => by
    simp only [evaluateStep?, Option.map_eq_none_iff] at h
    exact .collection (settlesAll_of_first_none h)

theorem settlesAll_of_first_none : ∀ {es : List Expr}, evaluateFirst? invoke es c = none →
    SettlesAll invoke c es es
  | [], _ => .nil
  | _ :: _, h => by
    simp only [evaluateFirst?] at h
    split at h
    · cases h
    · next he =>
      exact .cons (settles_of_step_none he) (settlesAll_of_first_none (by simpa using h))

end

mutual

/-- A rewrite in front of an evaluation. -/
theorem settles_of_step : ∀ {e e' v : Expr} {c' : Context}, e.assignFree →
    evaluateStep? invoke e c = some (e', c') → Settles invoke c e' v → Settles invoke c e v
  | .number _, _, _, _, _, h, _ => by cases h
  | .constant kind, _, _, _, _, h, hv => by
    simp only [evaluateStep?, Option.map_eq_some_iff, Prod.mk.injEq] at h
    obtain ⟨x, hx, rfl, -⟩ := h
    exact .constant hx hv
  | .variable name, _, _, _, _, h, hv => by
    simp only [evaluateStep?] at h
    split at h
    · cases h
    · next hs => cases h; exact .variable (by simpa using hs) hv
  | .parens inner, _, _, _, hf, h, hv => by
    simp only [evaluateStep?] at h
    split at h
    · next hi =>
      cases h
      cases hv with
      | parens hv => exact .parens (settles_of_step hf hi hv)
    · cases h; exact .parens hv
  | .unary .., _, _, _, hf, h, hv => by
    simp only [evaluateStep?] at h
    split at h
    · next ho =>
      cases h
      cases hv with
      | unaryStuck ha hs => exact .unaryStuck (settles_of_step hf ho ha) hs
      | unaryFold ha hs hv => exact .unaryFold (settles_of_step hf ho ha) hs hv
    · next ho =>
      simp only [Option.map_eq_some_iff, Prod.mk.injEq] at h
      obtain ⟨r, hr, rfl, -⟩ := h
      exact .unaryFold (settles_of_step_none ho) hr hv
  | .binary .., _, _, _, hf, h, hv => by
    simp only [assignFree, Bool.and_eq_true] at hf
    simp only [evaluateStep?] at h
    split at h
    · next hl =>
      cases h
      cases hv with
      | binaryStuck ha hb hs => exact .binaryStuck (settles_of_step hf.1 hl ha) hb hs
      | binaryFold ha hb hs hv => exact .binaryFold (settles_of_step hf.1 hl ha) hb hs hv
    · next hl =>
      split at h
      · next hr =>
        cases h
        cases hv with
        | binaryStuck ha hb hs => exact .binaryStuck ha (settles_of_step hf.2 hr hb) hs
        | binaryFold ha hb hs hv => exact .binaryFold ha (settles_of_step hf.2 hr hb) hs hv
      · next hr =>
        simp only [Option.map_eq_some_iff, Prod.mk.injEq] at h
        obtain ⟨f, hs, rfl, -⟩ := h
        exact .binaryFold (settles_of_step_none hl) (settles_of_step_none hr) hs hv
  | .assign .., _, _, _, hf, _, _ => by cases hf
  | .call name args, _, _, _, hf, h, hv => by
    simp only [evaluateStep?] at h
    split at h
    · next ha =>
      cases h
      cases hv with
      | call hvs hv => exact .call (settlesAll_of_first hf ha hvs) hv
    · next ha =>
      simp only [Option.some.injEq] at h
      refine .call (settlesAll_of_first_none ha) ?_
      rw [h]
      exact hv
  | .collection .., _, _, _, hf, h, hv => by
    simp only [evaluateStep?, Option.map_eq_some_iff, Prod.exists] at h
    obtain ⟨es, c', he, h⟩ := h
    cases h
    cases hv with
    | collection hs => exact .collection (settlesAll_of_first hf he hs)

theorem settlesAll_of_first : ∀ {es es' vs : List Expr} {c' : Context}, allAssignFree es →
    evaluateFirst? invoke es c = some (es', c') → SettlesAll invoke c es' vs →
    SettlesAll invoke c es vs
  | [], _, _, _, _, h, _ => by cases h
  | _ :: _, _, _, _, hf, h, hvs => by
    simp only [allAssignFree, Bool.and_eq_true] at hf
    simp only [evaluateFirst?] at h
    split at h
    · next he =>
      cases h
      cases hvs with
      | cons hv hvs => exact .cons (settles_of_step hf.1 he hv) hvs
    · simp only [Option.map_eq_some_iff, Prod.exists] at h
      obtain ⟨fs, c', hs, h⟩ := h
      cases h
      cases hvs with
      | cons hv hvs => exact .cons hv (settlesAll_of_first hf.2 hs hvs)

end

end

/-! ## Evaluation without assignments -/

end Expr

/-- No assignment is stored in the context, and its functions are local: evaluating a tree without
assignments does not change it. -/
structure Context.ReadOnly (c : Context) : Prop where
  values : ∀ name v, c.values.get? name = some v → v.assignFree
  functions : c.LocalFunctions

theorem Context.ReadOnly.lookup {c : Context} (hc : c.ReadOnly) (name : String) :
    (c.lookup name).assignFree :=
  lookup_of_values hc.values (fun _ => rfl) rfl

namespace Expr

section
variable {invoke : Invoke} {c : Context}

theorem kept_assignFree : Kept fun e => e.assignFree where
  undefined := rfl
  ofFloat x := assignFree_of_inert (inert_of_ground (ground_ofFloat x))
  unary h := h
  binary hl hr := by simp [assignFree, hl, hr]
  elements h := allAssignFree_iff.1 h
  collection _ _ h := allAssignFree_iff.2 h
  inner h := h
  parens _ h := h
  operand h := h
  operands h := by simpa [assignFree] using h
  value h := by cases h
  assign h := by cases h
  args h := allAssignFree_iff.1 h
  call _ _ h := allAssignFree_iff.2 h

/-- A rewrite of a tree without assignments leaves a read-only context as it is. -/
theorem context_of_step (hc : c.ReadOnly) (hq : invoke.Quiet c) {e e' : Expr} {c' : Context}
    (he : e.assignFree) (h : evaluateStep? invoke e c = some (e', c')) :
    c' = c ∧ e'.assignFree := by
  refine kept_assignFree.atPlace (fun {r r'} hr hredex => ?_) (atPlace_of_step h) he
  obtain rfl | ⟨target, rfl, -⟩ := hredex.context hq
  · exact ⟨rfl, kept_assignFree.redex (fun name _ => hc.lookup name)
      (fun name args _ => assignFree_of_inert (hq.result name args)) hredex hr⟩
  · cases hr

theorem settles_of_settle (hc : c.ReadOnly) (hq : invoke.Quiet c) {limit left : Nat} {e v : Expr}
    (he : e.assignFree) (h : (settle same (evaluateStep? invoke) limit left e c).1 = .ok v) :
    Settles invoke c e v := by
  -- Whatever a tree of the run settles to, the first one does too.
  let I (a : Expr) (s : Context) : Prop :=
    s = c ∧ a.assignFree ∧ ∀ w, Settles invoke c a w → Settles invoke c e w
  have hstep : ∀ a b s t, I a s → evaluateStep? invoke a s = some (b, t) →
      same b a = false ∧ I b t := by
    rintro a b s t ⟨rfl, ha, hsettles⟩ hab
    obtain ⟨ht, hb⟩ := context_of_step hc hq ha hab
    exact ⟨same_of_step hq.result hab, ht, hb, fun w hw => hsettles w (settles_of_step ha hab hw)⟩
  obtain ⟨n, -, hrun⟩ := settle_eq_ok_iff.1 (Prod.ext h rfl)
  obtain ⟨hrest, hc', -, hsettles⟩ := hrun.final (I := I) ⟨rfl, he, fun _ => id⟩ hstep
  rw [hc'] at hrest
  exact hsettles v (settles_of_step_none hrest)

/-- What evaluation answers is what the tree settles to. -/
theorem settles_of_evaluate (hc : c.ReadOnly) {e v : Expr} (hf : e.assignFree)
    (h : (e.evaluate c).1 = .ok v) : Settles Context.invoke c e v :=
  settles_of_settle hc (Context.quiet_invoke hc.functions) hf h

end

end Expr

end Formula
