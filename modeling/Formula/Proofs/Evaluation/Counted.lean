import Formula.Proofs.Evaluation.Calls

/-!
# Counted evaluations

`Expr.EvaluatesIn` is evaluation in a given number of rewrites. A rewrite of an operand is a rewrite of the
tree around it (`Expr.Frame`), and a value without variables is at rest in every context. So an evaluation
is made up of the evaluations of the operands, from the left, and that of the node over their values
(`evaluate_leftToRight`).
-/

set_option autoImplicit false

namespace Formula

namespace Expr

/-! ## Names in a tree -/

mutual

/-- The names of the variables of a tree, as often as they stand there. -/
def variableNames : Expr → List String
  | .number _ | .constant _ => []
  | .variable name => [name]
  | .parens inner => inner.variableNames
  | .unary _ _ operand => operand.variableNames
  | .binary left _ right => left.variableNames ++ right.variableNames
  | .assign _ value => value.variableNames
  | .call _ args => allVariableNames args
  | .collection _ elements => allVariableNames elements

/-- The names of the variables of several trees. -/
def allVariableNames : List Expr → List String
  | [] => []
  | e :: es => e.variableNames ++ allVariableNames es

end

section
variable {invoke : Invoke} {c d : Context}

mutual

/-- A tree that is at rest in one context is so in every context in which its variables stand for the
same. -/
theorem step_none_congr : ∀ {e : Expr}, evaluateStep? invoke e c = none →
    (∀ name ∈ e.variableNames, d.lookup name = c.lookup name) → evaluateStep? invoke e d = none
  | .number _, _, _ => rfl
  | .constant _, h, _ => by
    simp only [evaluateStep?, Option.map_eq_none_iff] at h
    simp only [evaluateStep?, h, Option.map_none]
  | .variable name, h, hv => by
    have hname := hv name List.mem_cons_self
    simp only [evaluateStep?] at h ⊢
    rw [hname]
    split at h
    · next hs => rw [if_pos hs]
    · cases h
  | .parens _, h, _ => by
    simp only [evaluateStep?] at h
    split at h <;> cases h
  | .unary _ _ operand, h, hv => by
    simp only [evaluateStep?] at h
    split at h
    · cases h
    · next ho =>
      rw [Option.map_eq_none_iff] at h
      have ho' := step_none_congr (e := operand) ho hv
      simp only [evaluateStep?, ho', h, Option.map_none]
  | .binary left _ right, h, hv => by
    rw [variableNames, List.forall_mem_append] at hv
    simp only [evaluateStep?] at h
    split at h
    · cases h
    · next hl =>
      split at h
      · cases h
      · next hr =>
        rw [Option.map_eq_none_iff] at h
        have hl' := step_none_congr hl hv.1
        have hr' := step_none_congr hr hv.2
        simp only [evaluateStep?, hl', hr', h, Option.map_none]
  | .assign .., h, _ => by
    simp only [evaluateStep?] at h
    split at h <;> cases h
  | .call .., h, _ => by
    simp only [evaluateStep?] at h
    split at h <;> cases h
  | .collection _ elements, h, hv => by
    simp only [evaluateStep?, Option.map_eq_none_iff] at h
    simp only [evaluateStep?, first_none_congr h hv, Option.map_none]

theorem first_none_congr : ∀ {es : List Expr}, evaluateFirst? invoke es c = none →
    (∀ name ∈ allVariableNames es, d.lookup name = c.lookup name) → evaluateFirst? invoke es d = none
  | [], _, _ => rfl
  | e :: es, h, hv => by
    rw [allVariableNames, List.forall_mem_append] at hv
    simp only [evaluateFirst?] at h
    split at h
    · cases h
    · next he =>
      rw [Option.map_eq_none_iff] at h
      have he' := step_none_congr he hv.1
      have hes' := first_none_congr h hv.2
      simp only [evaluateFirst?, he', hes', Option.map_none]

end

/-- A tree without variables that is at rest in one context is so in every context. -/
theorem step_none_of_variableNames_nil (d : Context) {e : Expr} (h : evaluateStep? invoke e c = none)
    (hv : e.variableNames = []) : evaluateStep? invoke e d = none :=
  step_none_congr h (by simp [hv])

/-- In a list an element is rewritten once those before it are at rest. -/
theorem first_append {front : List Expr} (hfront : ∀ v ∈ front, evaluateStep? invoke v c = none)
    (back : List Expr) {e e' : Expr} (h : evaluateStep? invoke e c = some (e', d)) :
    evaluateFirst? invoke (front ++ e :: back) c = some (front ++ e' :: back, d) := by
  induction front with
  | nil => simp only [List.nil_append, evaluateFirst?, h]
  | cons v front ih =>
    have hv := hfront v List.mem_cons_self
    have hrest := ih fun w hw => hfront w (List.mem_cons_of_mem _ hw)
    simp only [List.cons_append, evaluateFirst?, hv, hrest, Option.map_some]

end

/-! ## Counted evaluations -/

/-- In the context `c` the tree `e` evaluates to `v` in exactly `n` rewrites, which leave the context
`d`. -/
abbrev EvaluatesIn (n : Nat) (e : Expr) (c : Context) (v : Expr) (d : Context) : Prop :=
  SettlesIn same (evaluateStep? Context.invoke) n e c v d

/-- Trees evaluate one after the other, each in the context that the one before it left; `n` counts the
rewrites of all. -/
inductive EvaluateIn : Nat → List Expr → Context → List Expr → Context → Prop
  | nil {c : Context} : EvaluateIn 0 [] c [] c
  | cons {m n : Nat} {e v : Expr} {es vs : List Expr} {b c d : Context} : EvaluatesIn m e b v c →
      EvaluateIn n es c vs d → EvaluateIn (m + n) (e :: es) b (v :: vs) d

/-- An evaluation is the counted one when its limit is not below the count. -/
theorem evaluate_of_evaluatesIn {n : Nat} {e v : Expr} {c d : Context} (h : EvaluatesIn n e c v d)
    (hn : n ≤ c.maxIterations) : e.evaluate c = (.ok v, d) :=
  settle_eq_ok_iff.2 ⟨n, hn, h⟩

section
variable {c d : Context} {e v u : Expr} {m n : Nat}

/-- A rewrite in a context with local functions gives another tree. -/
theorem same_of_local (hc : c.LocalFunctions) {e' : Expr} {c' : Context}
    (h : evaluateStep? Context.invoke e c = some (e', c')) : same e' e = false :=
  same_of_step (Context.quiet_invoke hc).result h

/-- A rewrite keeps all functions local. -/
theorem local_of_step (hc : c.LocalFunctions) {e' : Expr} {c' : Context}
    (h : evaluateStep? Context.invoke e c = some (e', c')) : c'.LocalFunctions := by
  intro name f hf
  rw [functions_of_step (Context.quiet_invoke hc) h] at hf
  exact hc name f hf

theorem EvaluatesIn.next (hc : c.LocalFunctions) {e' : Expr} {c' : Context}
    (h : evaluateStep? Context.invoke e c = some (e', c')) (hr : EvaluatesIn n e' c' v d) :
    EvaluatesIn (n + 1) e c v d :=
  SettlesIn.next h (same_of_local hc h) hr

/-- An evaluation ends at a tree at rest and keeps all functions local. -/
theorem EvaluatesIn.final (h : EvaluatesIn n e c v d) (hc : c.LocalFunctions) :
    evaluateStep? Context.invoke v d = none ∧ d.LocalFunctions :=
  SettlesIn.final (I := fun _ c => c.LocalFunctions) h hc fun _ _ _ _ hc hs =>
    ⟨same_of_local hc hs, local_of_step hc hs⟩

/-! ## Operands -/

/-- Rewrites of a tree are rewrites of the tree that `k` makes around it. -/
def Frame (k : Expr → Expr) : Prop :=
  ∀ (e : Expr) (c : Context) (e' : Expr) (c' : Context),
    evaluateStep? Context.invoke e c = some (e', c') →
      evaluateStep? Context.invoke (k e) c = some (k e', c')

/-- What stands in a frame is evaluated first. -/
theorem Frame.evaluatesIn {k : Expr → Expr} (hk : Frame k) {b : Context} (hb : b.LocalFunctions)
    (h : EvaluatesIn m e b v c) (hr : EvaluatesIn n (k v) c u d) :
    EvaluatesIn (m + n) (k e) b u d := by
  induction h with
  | rest _ => rwa [Nat.zero_add]
  | equal hs he => rw [same_of_local hb hs] at he; cases he
  | next hs _ _ ih =>
    rw [Nat.add_right_comm]
    exact .next hb (hk _ _ _ _ hs) (ih (local_of_step hb hs) hr)

/-- What stands in a frame has been evaluated when the whole tree has. -/
theorem Frame.exists_evaluatesIn {k : Expr → Expr} (hk : Frame k) {b : Context}
    (hb : b.LocalFunctions) (h : EvaluatesIn n (k e) b u d) :
    ∃ m v c, EvaluatesIn m e b v c ∧ ∃ n', EvaluatesIn n' (k v) c u d := by
  induction n generalizing e b with
  | zero =>
    cases hs : evaluateStep? Context.invoke e b with
    | none => exact ⟨0, e, b, .rest hs, 0, h⟩
    | some next =>
      have hwhole := hk _ _ _ _ hs
      cases h with
      | rest hrest => rw [hwhole] at hrest; cases hrest
      | equal hs' he => rw [same_of_local hb hs'] at he; cases he
  | succ n ih =>
    cases hs : evaluateStep? Context.invoke e b with
    | none => exact ⟨0, e, b, .rest hs, n + 1, h⟩
    | some next =>
      obtain ⟨e', b'⟩ := next
      have hwhole := hk _ _ _ _ hs
      cases h with
      | next hs' _ hr =>
        obtain ⟨rfl, rfl⟩ := Prod.mk.inj (Option.some.inj (hwhole.symm.trans hs'))
        obtain ⟨m, v, c, hv, hrest⟩ := ih (local_of_step hb hs) hr
        exact ⟨m + 1, v, c, hv.next hb hs, hrest⟩

theorem frame_parens : Frame .parens := by
  intro e c e' c' h
  simp only [evaluateStep?, h]

theorem frame_unary (side : Side) (op : UnaryOperator) : Frame (.unary side op) := by
  intro e c e' c' h
  simp only [evaluateStep?, h]

theorem frame_assign (target : String) : Frame (.assign target) := by
  intro e c e' c' h
  simp only [evaluateStep?, h]

theorem frame_left (op : BinaryOperator) (r : Expr) : Frame (.binary · op r) := by
  intro e c e' c' h
  simp only [evaluateStep?, h]

/-- A right operand is rewritten once the left one is at rest in every context. -/
theorem frame_right {l : Expr} (op : BinaryOperator)
    (hl : ∀ c, evaluateStep? Context.invoke l c = none) : Frame (.binary l op ·) := by
  intro e c e' c' h
  simp only [evaluateStep?, hl, h]

/-- Rewrites of a list are rewrites of the tree that `k` makes of it. -/
def ListFrame (k : List Expr → Expr) : Prop :=
  ∀ (es : List Expr) (c : Context) (es' : List Expr) (c' : Context),
    evaluateFirst? Context.invoke es c = some (es', c') →
      evaluateStep? Context.invoke (k es) c = some (k es', c')

theorem listFrame_call (name : String) : ListFrame (.call name) := by
  intro es c es' c' h
  simp only [evaluateStep?, h]

theorem listFrame_collection (kind : CollectionKind) : ListFrame (.collection kind) := by
  intro es c es' c' h
  simp only [evaluateStep?, h, Option.map_some]

/-- An element of a list is in a frame once those before it are at rest in every context. -/
theorem ListFrame.frame {k : List Expr → Expr} (hk : ListFrame k) {front : List Expr}
    (hfront : ∀ v ∈ front, ∀ c, evaluateStep? Context.invoke v c = none) (back : List Expr) :
    Frame fun e => k (front ++ e :: back) := by
  intro e c e' c' h
  exact hk _ _ _ _ (first_append (fun v hv => hfront v hv c) back h)

/-- The elements of a list are evaluated first, from the left. -/
theorem ListFrame.evaluatesIn {k : List Expr → Expr} (hk : ListFrame k) {es vs : List Expr}
    {b : Context} (hb : b.LocalFunctions) (h : EvaluateIn m es b vs c)
    (hvs : ∀ v ∈ vs.dropLast, v.variableNames = []) (hr : EvaluatesIn n (k vs) c u d) :
    EvaluatesIn (m + n) (k es) b u d := by
  suffices key : ∀ front : List Expr,
      (∀ v ∈ front, ∀ c, evaluateStep? Context.invoke v c = none) →
      EvaluatesIn n (k (front ++ vs)) c u d → EvaluatesIn (m + n) (k (front ++ es)) b u d from
    key [] (by simp) hr
  clear hr
  induction h with
  | nil =>
    intro front _ hr
    rwa [Nat.zero_add]
  | @cons m₁ m₂ e v es vs b _ _ he hes ih =>
    intro front hfront hr
    obtain ⟨hv, hlocal⟩ := he.final hb
    rw [Nat.add_assoc]
    refine (hk.frame hfront es).evaluatesIn hb he ?_
    cases hes with
    | nil => rwa [Nat.zero_add]
    | cons hw hws =>
      -- An element follows, so this value has no variables and nothing can set it going again.
      have hrest : ∀ w ∈ front ++ [v], ∀ c, evaluateStep? Context.invoke w c = none := by
        intro w hw c'
        rcases List.mem_append.1 hw with hw | hw
        · exact hfront w hw c'
        · rw [List.mem_singleton.1 hw]
          exact step_none_of_variableNames_nil c' hv (hvs v (by simp))
      have key := ih hlocal (fun w hw => hvs w (by simp [hw])) (front ++ [v]) hrest
        (by simpa using hr)
      simpa using key

/-- Values that were evaluated one after the other are all at rest in the end. -/
theorem EvaluateIn.final {es vs : List Expr} {b : Context} (h : EvaluateIn n es b vs d)
    (hb : b.LocalFunctions) (hvs : ∀ v ∈ vs.dropLast, v.variableNames = []) :
    evaluateFirst? Context.invoke vs d = none := by
  induction h with
  | nil => rfl
  | @cons _ _ _ v _ vs _ _ d he hes ih =>
    obtain ⟨hv, hlocal⟩ := he.final hb
    cases hes with
    | nil => simp only [evaluateFirst?, hv, Option.map_none]
    | cons hw hws =>
      have hv' := step_none_of_variableNames_nil d hv (hvs v (by simp))
      have hvs' := ih hlocal fun w hw => hvs w (by simp [hw])
      rw [evaluateFirst?]
      simp only [hv', hvs', Option.map_none]

end

/-! ## Operators over values -/

section
variable {c : Context}

mutual

/-- Whether a tree is made of operators and collections over leaves that are at rest. -/
def LeavesRest (c : Context) : Expr → Prop
  | .number _ => True
  | .constant kind => kind.value? = none
  | .variable name => same (c.lookup name) (.variable name)
  | .unary _ _ operand => operand.LeavesRest c
  | .binary left _ right => left.LeavesRest c ∧ right.LeavesRest c
  | .collection _ elements => AllLeavesRest c elements
  | .parens _ | .assign .. | .call .. => False

/-- Whether several trees are all made of operators and collections over leaves at rest. -/
def AllLeavesRest (c : Context) : List Expr → Prop
  | [] => True
  | e :: es => e.LeavesRest c ∧ AllLeavesRest c es

end

theorem allLeavesRest_iff {es : List Expr} : AllLeavesRest c es ↔ ∀ e ∈ es, e.LeavesRest c := by
  induction es with
  | nil => simp [AllLeavesRest]
  | cons e es ih => simp [AllLeavesRest, ih]

mutual

theorem leavesRest_of_step_none : ∀ {e : Expr}, evaluateStep? Context.invoke e c = none →
    e.LeavesRest c
  | .number _, _ => trivial
  | .constant _, h => by
    simpa only [LeavesRest, evaluateStep?, Option.map_eq_none_iff] using h
  | .variable _, h => by
    simp only [evaluateStep?] at h
    split at h
    · next hs => exact hs
    · cases h
  | .parens _, h => by
    simp only [evaluateStep?] at h
    split at h <;> cases h
  | .unary _ _ operand, h => by
    simp only [evaluateStep?] at h
    split at h
    · cases h
    · next ho => exact leavesRest_of_step_none (e := operand) ho
  | .binary left _ right, h => by
    simp only [evaluateStep?] at h
    split at h
    · cases h
    · next hl =>
      split at h
      · cases h
      · next hr => exact ⟨leavesRest_of_step_none hl, leavesRest_of_step_none hr⟩
  | .assign .., h => by
    simp only [evaluateStep?] at h
    split at h <;> cases h
  | .call .., h => by
    simp only [evaluateStep?] at h
    split at h <;> cases h
  | .collection _ elements, h => by
    simp only [evaluateStep?, Option.map_eq_none_iff] at h
    exact allLeavesRest_of_first_none h

theorem allLeavesRest_of_first_none : ∀ {es : List Expr},
    evaluateFirst? Context.invoke es c = none → AllLeavesRest c es
  | [], _ => trivial
  | e :: es, h => by
    simp only [evaluateFirst?] at h
    split at h
    · cases h
    · next he =>
      rw [Option.map_eq_none_iff] at h
      exact ⟨leavesRest_of_step_none he, allLeavesRest_of_first_none h⟩

end

theorem kept_leavesRest (c : Context) : Kept (LeavesRest c) where
  undefined := rfl
  ofFloat x := by
    unfold Expr.ofFloat
    split <;> constructor
  unary h := h
  binary hl hr := ⟨hl, hr⟩
  elements h := allLeavesRest_iff.1 h
  collection _ _ h := allLeavesRest_iff.2 h
  inner h := h.elim
  parens h := h.elim
  operand h := h
  operands h := h
  value h := h.elim
  assign h := h.elim
  args h := h.elim
  call h := h.elim

/-- Rewrites of operators over leaves at rest fold, and nothing else. -/
theorem leavesRest_of_step {e e' : Expr} {c' : Context} (he : e.LeavesRest c)
    (h : evaluateStep? Context.invoke e c = some (e', c')) : c' = c ∧ e'.LeavesRest c := by
  refine (kept_leavesRest c).atPlace (fun {r r'} hr hredex => ?_) (atPlace_of_step h) he
  cases hredex with
  | constant hk => rw [LeavesRest, hk] at hr; cases hr
  | «variable» hs => rw [LeavesRest, hs] at hr; cases hr
  | unary hf => exact ⟨rfl, (kept_leavesRest c).foldUnary ((kept_leavesRest c).operand hr) hf⟩
  | binary hf => exact ⟨rfl, (kept_leavesRest c).foldBinary hr.1 hr.2 hf⟩
  | parens | assign | call => exact hr.elim

/-- Operators over values change no context. -/
theorem EvaluatesIn.context_eq {n : Nat} {e v : Expr} {d : Context} (h : EvaluatesIn n e c v d)
    (he : e.LeavesRest c) : d = c := by
  induction h with
  | rest => rfl
  | equal hs => exact (leavesRest_of_step he hs).1
  | next hs _ _ ih =>
    obtain ⟨rfl, he'⟩ := leavesRest_of_step he hs
    exact ih he'

end

/-! ## From the left to the right -/

/-- **Operands evaluate from the left, before the node over them.** In a context with local functions:

* the operands of a binary operator evaluate one after the other, then the operator over their values,
  which changes the context no further;
* the elements of a collection evaluate one after the other, and then the collection is at rest;
* the arguments of a call evaluate one after the other, then the call of their values.

The rewrites add up. A value with something to evaluate after it must not hold variables: what comes
after it could bind them. -/
theorem evaluate_leftToRight {c : Context} (hc : c.LocalFunctions) :
    (∀ {op : BinaryOperator} {l r lv rv u : Expr} {c₁ c₂ c₃ : Context} {n₁ n₂ n₃ : Nat},
      EvaluatesIn n₁ l c lv c₁ → lv.variableNames = [] → EvaluatesIn n₂ r c₁ rv c₂ →
      EvaluatesIn n₃ (.binary lv op rv) c₂ u c₃ → n₁ + n₂ + n₃ ≤ c.maxIterations →
      (Expr.binary l op r).evaluate c = (.ok u, c₂) ∧
        EvaluatesIn (n₁ + n₂ + n₃) (.binary l op r) c u c₂) ∧
    (∀ {kind : CollectionKind} {es vs : List Expr} {c₁ : Context} {n : Nat},
      EvaluateIn n es c vs c₁ → (∀ v ∈ vs.dropLast, v.variableNames = []) → n ≤ c.maxIterations →
      (Expr.collection kind es).evaluate c = (.ok (.collection kind vs), c₁) ∧
        EvaluatesIn n (.collection kind es) c (.collection kind vs) c₁) ∧
    (∀ {name : String} {es vs : List Expr} {u : Expr} {c₁ c₂ : Context} {n₁ n₂ : Nat},
      EvaluateIn n₁ es c vs c₁ → (∀ v ∈ vs.dropLast, v.variableNames = []) →
      EvaluatesIn n₂ (.call name vs) c₁ u c₂ → n₁ + n₂ ≤ c.maxIterations →
      (Expr.call name es).evaluate c = (.ok u, c₂) ∧
        EvaluatesIn (n₁ + n₂) (.call name es) c u c₂) := by
  refine ⟨?_, ?_, ?_⟩
  · intro op l r lv rv u c₁ c₂ c₃ n₁ n₂ n₃ hl hlv hr hu hn
    obtain ⟨hlrest, hlocal⟩ := hl.final hc
    have hlrest' := fun d => step_none_of_variableNames_nil d hlrest hlv
    obtain rfl : c₃ = c₂ := hu.context_eq
      ⟨leavesRest_of_step_none (hlrest' c₂), leavesRest_of_step_none (hr.final hlocal).1⟩
    have hwhole : EvaluatesIn (n₁ + n₂ + n₃) (.binary l op r) c u c₃ := by
      rw [Nat.add_assoc]
      refine (frame_left op r).evaluatesIn hc hl ?_
      exact (frame_right op hlrest').evaluatesIn hlocal hr hu
    exact ⟨evaluate_of_evaluatesIn hwhole hn, hwhole⟩
  · intro kind es vs c₁ n hes hvs hn
    have hrest : EvaluatesIn 0 (.collection kind vs) c₁ (.collection kind vs) c₁ := by
      refine .rest ?_
      rw [evaluateStep?, hes.final hc hvs, Option.map_none]
    have hwhole : EvaluatesIn n (.collection kind es) c (.collection kind vs) c₁ :=
      (listFrame_collection kind).evaluatesIn hc hes hvs hrest
    exact ⟨evaluate_of_evaluatesIn hwhole hn, hwhole⟩
  · intro name es vs u c₁ c₂ n₁ n₂ hes hvs hu hn
    have hwhole := (listFrame_call name).evaluatesIn hc hes hvs hu
    exact ⟨evaluate_of_evaluatesIn hwhole hn, hwhole⟩

theorem step_numbers {op : BinaryOperator} {x y z : Float} (h : op.apply x y = z)
    (hz : z.isNaN = false) (c : Context) :
    evaluateStep? Context.invoke (.binary (.number x) op (.number y)) c = some (.number z, c) := by
  simp only [evaluateStep?, foldBinary?, isUndefined, Bool.or_self, Bool.false_eq_true, if_false, h,
    ofFloat, hz, Option.map_some]

/-- The operands `x = 2` and `x + 1` take one and two rewrites, and the product, the pair and the
greatest of their values one, none and one more. -/
theorem evaluate_leftToRight_assign :
    let c := Context.empty.bindFunction "max" (.builtin .max)
    let d := c.bindVariable "x" (.number 2)
    let l := assign "x" (.number 2)
    let r := binary (.variable "x") .add (.number 1)
    ((binary l .mul r).evaluate c = (.ok (.number 6), d) ∧
      EvaluatesIn 4 (.binary l .mul r) c (.number 6) d) ∧
    ((collection .tuple [l, r]).evaluate c = (.ok (.collection .tuple [.number 2, .number 3]), d) ∧
      EvaluatesIn 3 (.collection .tuple [l, r]) c (.collection .tuple [.number 2, .number 3]) d) ∧
    ((call "max" [l, r]).evaluate c = (.ok (.number 3), d) ∧
      EvaluatesIn 4 (.call "max" [l, r]) c (.number 3) d) := by
  intro c d l r
  have hc : c.LocalFunctions := by
    intro name f hf
    simp only [c, Context.bindFunction, Context.empty, Table.get?, Table.insert, Table.put,
      Table.lookup] at hf
    split at hf <;> cases hf
    rfl
  have hl : EvaluatesIn 1 l c (.number 2) d := SettlesIn.next rfl rfl (.rest rfl)
  have hsum : evaluateStep? Context.invoke (.binary (.number 2) .add (.number 1)) d =
      some (.number 3, d) := step_numbers (by decide +kernel) (by decide +kernel) d
  have hproduct : evaluateStep? Context.invoke (.binary (.number 2) .mul (.number 3)) d =
      some (.number 6, d) := step_numbers (by decide +kernel) (by decide +kernel) d
  have hgreatest : evaluateStep? Context.invoke (.call "max" [.number 2, .number 3]) d =
      some (.number 3, d) := by
    have hmax : Builtin.max.value [2, 3] = 3 := by decide +kernel
    have hthree : (3 : Float).isNaN = false := by decide +kernel
    show some (ofFloat (Builtin.max.value [2, 3]), d) = _
    rw [hmax, ofFloat, hthree]
    rfl
  have hr : EvaluatesIn 2 r d (.number 3) d :=
    SettlesIn.next (b := .binary (.number 2) .add (.number 1)) rfl rfl
      (SettlesIn.next hsum rfl (.rest rfl))
  have hlist : EvaluateIn 3 [l, r] c [.number 2, .number 3] d := .cons hl (.cons hr .nil)
  have hvalues : ∀ v ∈ [number 2, number 3].dropLast, v.variableNames = [] := by
    intro v hv
    rw [List.mem_singleton.1 hv]
    rfl
  have h := evaluate_leftToRight hc
  refine ⟨?_, ?_, ?_⟩
  · exact h.1 hl rfl hr (SettlesIn.next hproduct rfl (.rest rfl)) (by decide)
  · exact h.2.1 hlist hvalues (by decide)
  · exact h.2.2 hlist hvalues (SettlesIn.next hgreatest rfl (.rest rfl)) (by decide)

end Expr

end Formula
