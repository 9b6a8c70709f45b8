import Formula.Proofs.Evaluation.NormalForm

/-!
# What an assignment stores

An assignment stores the value it evaluates to (`evaluate_assign`). What is stored is at rest when it is
stored, and the evaluation goes on with it. If it mentions the very variable that it was stored under, by a
name that stood for a function, then it is no longer at rest: every look-up puts the whole value in the place
of the variable, and the value mentions the variable again. The next rewrite is always such a look-up
(`LooksUp.step`), so the evaluation never ends (`LooksUp.not_evaluatesIn`). In all other cases the value
stays at rest, and is what the evaluation gives.
-/

set_option autoImplicit false

namespace Formula.Expr

/-- The first rewrite of a tree is to look up the variable: what comes before it is at rest. -/
inductive LooksUp (c : Context) (x : String) : Expr → Prop
  | variable : LooksUp c x (.variable x)
  | unary (side : Side) (op : UnaryOperator) {e : Expr} : LooksUp c x e →
      LooksUp c x (.unary side op e)
  | left (op : BinaryOperator) (r : Expr) {l : Expr} : LooksUp c x l → LooksUp c x (.binary l op r)
  | right (op : BinaryOperator) {l r : Expr} : evaluateStep? Context.invoke l c = none →
      LooksUp c x r → LooksUp c x (.binary l op r)
  | collection (kind : CollectionKind) {front : List Expr} (back : List Expr) {e : Expr} :
      (∀ v ∈ front, evaluateStep? Context.invoke v c = none) → LooksUp c x e →
      LooksUp c x (.collection kind (front ++ e :: back))

section
variable {b c d : Context} {x : String} {e : Expr}

/-- Looking up a variable that stands for something that looks it up again leads to another look-up. -/
theorem LooksUp.step (hx : same (c.lookup x) (.variable x) = false) (hself : LooksUp c x (c.lookup x))
    (h : LooksUp c x e) :
    ∃ e', evaluateStep? Context.invoke e c = some (e', c) ∧ LooksUp c x e' := by
  induction h with
  | «variable» =>
    refine ⟨c.lookup x, ?_, hself⟩
    simp only [evaluateStep?, hx, Bool.false_eq_true, if_false]
  | unary side op _ ih =>
    obtain ⟨e', he', hlooks⟩ := ih
    exact ⟨.unary side op e', frame_unary side op _ _ _ _ he', .unary side op hlooks⟩
  | left op r _ ih =>
    obtain ⟨l', hl', hlooks⟩ := ih
    exact ⟨.binary l' op r, frame_left op r _ _ _ _ hl', .left op r hlooks⟩
  | right op hl _ ih =>
    obtain ⟨r', hr', hlooks⟩ := ih
    refine ⟨.binary _ op r', ?_, .right op hl hlooks⟩
    simp only [evaluateStep?, hl, hr']
  | collection kind back hfront _ ih =>
    obtain ⟨e', he', hlooks⟩ := ih
    exact ⟨.collection kind (_ ++ e' :: back),
      listFrame_collection kind _ _ _ _ (first_append hfront back he'),
      .collection kind back hfront hlooks⟩

/-- A variable that stands for something that looks it up again is never done with. -/
theorem LooksUp.not_evaluatesIn (hc : c.LocalFunctions) (hx : same (c.lookup x) (.variable x) = false)
    (hself : LooksUp c x (c.lookup x)) (h : LooksUp c x e) {n : Nat} {v : Expr} :
    ¬ EvaluatesIn n e c v d := by
  intro hrun
  have hstep : ∀ (a a' : Expr) (s t : Context), s = c ∧ LooksUp c x a →
      evaluateStep? Context.invoke a s = some (a', t) →
      same a' a = false ∧ t = c ∧ LooksUp c x a' := by
    rintro a a' s t ⟨rfl, ha⟩ hs
    refine ⟨same_of_local hc hs, ?_⟩
    obtain ⟨b, hb, hlooks⟩ := LooksUp.step hx hself ha
    obtain ⟨rfl, rfl⟩ := Prod.mk.inj (Option.some.inj (hb.symm.trans hs))
    exact ⟨rfl, hlooks⟩
  obtain ⟨hrest, rfl, hlooks⟩ :=
    SettlesIn.final (I := fun a s => s = c ∧ LooksUp c x a) hrun ⟨rfl, h⟩ hstep
  obtain ⟨v', hv', -⟩ := LooksUp.step hx hself hlooks
  rw [hv'] at hrest
  cases hrest

mutual

/-- A tree at rest that mentions a variable looks it up where only this variable stands for something
else. -/
theorem looksUp_of_step_none (hd : ∀ name, name ≠ x → d.lookup name = c.lookup name) : ∀ {e : Expr},
    evaluateStep? Context.invoke e c = none → x ∈ e.variableNames → LooksUp d x e
  | .number _, _, hmem | .constant _, _, hmem => by cases hmem
  | .variable name, _, hmem => by
    rw [← List.mem_singleton.1 hmem]
    exact .variable
  | .parens _, h, _ | .assign .., h, _ | .call .., h, _ => by cases inert_of_step_none h
  | .unary side op operand, h, hmem => by
    simp only [evaluateStep?] at h
    split at h
    · cases h
    · next ho => exact .unary side op (looksUp_of_step_none hd (e := operand) ho hmem)
  | .binary left op right, h, hmem => by
    rw [variableNames, List.mem_append] at hmem
    simp only [evaluateStep?] at h
    split at h
    · cases h
    · next hl =>
      split at h
      · cases h
      · next hr =>
        by_cases hleft : x ∈ left.variableNames
        · exact .left op right (looksUp_of_step_none hd hl hleft)
        · have hrest := step_none_congr hl fun name hname => hd name (ne_of_mem_of_not_mem hname hleft)
          exact .right op hrest (looksUp_of_step_none hd hr (hmem.resolve_left hleft))
  | .collection kind elements, h, hmem => by
    simp only [evaluateStep?, Option.map_eq_none_iff] at h
    obtain ⟨front, e, back, rfl, hfront, he⟩ := exists_looksUp hd h hmem
    exact .collection kind back hfront he

/-- Of several trees at rest the first that mentions the variable looks it up; those before it stay at
rest. -/
theorem exists_looksUp (hd : ∀ name, name ≠ x → d.lookup name = c.lookup name) : ∀ {es : List Expr},
    evaluateFirst? Context.invoke es c = none → x ∈ allVariableNames es → ∃ front e back,
      es = front ++ e :: back ∧ (∀ v ∈ front, evaluateStep? Context.invoke v d = none) ∧ LooksUp d x e
  | [], _, hmem => by cases hmem
  | e :: es, h, hmem => by
    rw [allVariableNames, List.mem_append] at hmem
    simp only [evaluateFirst?] at h
    split at h
    · cases h
    · next he =>
      rw [Option.map_eq_none_iff] at h
      by_cases hmem' : x ∈ e.variableNames
      · exact ⟨[], e, es, rfl, fun v hv => by (cases hv), looksUp_of_step_none hd he hmem'⟩
      · have hrest := step_none_congr he fun name hname => hd name (ne_of_mem_of_not_mem hname hmem')
        obtain ⟨front, a, back, rfl, hfront, ha⟩ := exists_looksUp hd h (hmem.resolve_left hmem')
        exact ⟨e :: front, a, back, rfl, List.forall_mem_cons.2 ⟨hrest, hfront⟩, ha⟩

end

/-! ## Storing a value -/

theorem lookup_bindVariable_self (c : Context) (name : String) (v : Expr) :
    (c.bindVariable name v).lookup name = v := by
  rw [Context.lookup, Context.bindVariable, Table.get?_insert_self]

theorem lookup_bindVariable_of_ne (c : Context) {name other : String} (v : Expr) (h : other ≠ name) :
    (c.bindVariable name v).lookup other = c.lookup other := by
  rw [Context.lookup, Context.bindVariable, Table.get?_insert_of_ne _ _ h]
  rfl

/-- When the evaluation of an assignment ends, its value has been at rest, was stored, and is at rest
still. -/
theorem exists_of_evaluatesIn_assign (hc : c.LocalFunctions) {v u : Expr} {n : Nat}
    (h : EvaluatesIn n (.assign x v) c u d) : ∃ b : Context, d = b.bindVariable x u := by
  obtain ⟨m, w, b, hw, n', hrest⟩ := (frame_assign x).exists_evaluatesIn hc h
  obtain ⟨hwrest, hb⟩ := hw.final hc
  have hstore : evaluateStep? Context.invoke (.assign x w) b = some (w, b.bindVariable x w) := by
    simp only [evaluateStep?, hwrest]
  have hlocal := local_of_step hb hstore
  obtain ⟨k, hrun⟩ : ∃ k, EvaluatesIn k w (b.bindVariable x w) u d := by
    cases hrest with
    | rest hs => rw [hstore] at hs; cases hs
    | equal hs he => rw [same_of_local hb hs] at he; cases he
    | next hs _ hr =>
      obtain ⟨rfl, rfl⟩ := Prod.mk.inj (Option.some.inj (hstore.symm.trans hs))
      exact ⟨_, hr⟩
  have hother : ∀ name, name ≠ x → (b.bindVariable x w).lookup name = b.lookup name :=
    fun name hname => lookup_bindVariable_of_ne b w hname
  have hself := lookup_bindVariable_self b x w
  have hstill : evaluateStep? Context.invoke w (b.bindVariable x w) = none := by
    by_cases hmem : x ∈ w.variableNames
    · by_cases hx : same w (.variable x) = true
      · rw [same_variable_iff.1 hx] at hself ⊢
        simp only [evaluateStep?, hself, same, decide_true, if_true]
      · -- The value that was stored mentions itself.
        have hlooks := looksUp_of_step_none hother hwrest hmem
        refine absurd hrun (LooksUp.not_evaluatesIn hlocal ?_ ?_ hlooks)
        · rw [hself]
          simpa using hx
        · rwa [hself]
    · exact step_none_congr hwrest fun name hname => hother name (ne_of_mem_of_not_mem hname hmem)
  cases hrun with
  | rest => exact ⟨b, rfl⟩
  | equal hs | next hs => rw [hstill] at hs; cases hs

/-- **An assignment stores its result.** Let all functions of a context be built in or expressions. If an
assignment evaluates to `u` there, then its target stands for `u` itself afterwards, whatever the value
assigns to or mentions; and looking the target up again, with any limit that allows a rewrite, gives `u` and
changes nothing. -/
theorem evaluate_assign {c c' : Context} (hc : c.LocalFunctions) {x : String} {v u : Expr}
    (h : (assign x v).evaluate c = (.ok u, c')) :
    c'.values.get? x = some u ∧ c'.lookup x = u ∧
      ∀ limit, 1 ≤ limit →
        (Expr.variable x).evaluate (c'.withLimit limit) = (.ok u, c'.withLimit limit) := by
  obtain ⟨n, -, hrun⟩ := settle_eq_ok_iff.1 h
  obtain ⟨hrest, -⟩ := EvaluatesIn.final hrun hc
  obtain ⟨b, rfl⟩ := exists_of_evaluatesIn_assign hc hrun
  have hlookup := lookup_bindVariable_self b x u
  refine ⟨Table.get?_insert_self _ x u, hlookup, fun limit hlimit => ?_⟩
  have hlookup' : ((b.bindVariable x u).withLimit limit).lookup x = u := hlookup
  have hrest' : evaluateStep? Context.invoke u ((b.bindVariable x u).withLimit limit) = none :=
    step_none_congr hrest fun _ _ => rfl
  by_cases hx : same u (.variable x) = true
  · obtain rfl := same_variable_iff.1 hx
    exact evaluate_of_step_none hrest'
  · have hstep : evaluateStep? Context.invoke (.variable x) ((b.bindVariable x u).withLimit limit) =
        some (u, (b.bindVariable x u).withLimit limit) := by
      simp only [evaluateStep?, hlookup', hx, Bool.false_eq_true, if_false]
    exact evaluate_of_evaluatesIn (SettlesIn.next hstep (by simpa using hx) (.rest hrest')) hlimit

/-- In `sin = [sin = cos, y = sin]` the name is first that of a function only. In the end `y` stands for `cos`
and `sin` for `[cos, cos]`. -/
theorem evaluate_assign_twice :
    let c := Context.withBuiltins
    let v := Expr.collection .vector
      [assign "sin" (.variable "cos"), assign "y" (.variable "sin")]
    let u := Expr.collection .vector [.variable "cos", .variable "cos"]
    let c' := ((assign "sin" v).evaluate c).2
    c.lookup "sin" = .variable "sin" ∧ (assign "sin" v).evaluate c = (.ok u, c') ∧
      c'.values.get? "sin" = some u ∧ c'.lookup "sin" = u ∧ ∀ limit, 1 ≤ limit →
        (Expr.variable "sin").evaluate (c'.withLimit limit) = (.ok u, c'.withLimit limit) := by
  intro c v u c'
  have hc : c.LocalFunctions := ground_withBuiltins.local defaultMaxIterations
  have hrun : (assign "sin" v).evaluate c = (.ok u, c') := by rfl
  exact ⟨rfl, hrun, evaluate_assign hc hrun⟩

end

end Formula.Expr
