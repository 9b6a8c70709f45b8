import Formula.Proofs.Evaluation.Broadcast

/-!
# Evaluation ends at ground values

In a context with built-in functions only, whose variables have ground values and are not named like a
function, every tree that uses no function name as a variable evaluates to a ground tree, provided that
enough rewrites are allowed; and the context is such a context again (`evaluate_converges`). Neither the
number of rewrites that is enough nor the result depends on the limit.

Looking up variables and spreading operators over collections make a tree larger, so no size of it
decreases. The induction is on the tree that is evaluated, with the counted evaluations of its operands
put together; operators over ground operands are worked off as values are (`hasValue_binary`).
-/

set_option autoImplicit false

namespace Formula

open Formula.Expr

namespace Context

/-- All functions are built in, all values are ground, and no variable is named like a function. -/
structure Ground (c : Context) : Prop where
  functions : ∀ name f, c.functions.get? name = some f → ∃ b, f = .builtin b
  values : ∀ name v, c.values.get? name = some v → v.ground
  apart : ∀ name, c.values.contains name → c.hasFunction name = false

/-- No function name is a variable or the target of an assignment. -/
def Avoids (c : Context) (names targets : List String) : Prop :=
  ∀ name ∈ names ++ targets, c.hasFunction name = false

theorem Avoids.mono {c d : Context} {vs ws ts us : List String} (h : c.Avoids ws us)
    (hfun : d.functions = c.functions) (hv : vs ⊆ ws) (ht : ts ⊆ us) : d.Avoids vs ts := by
  intro name hname
  rw [hasFunction, hfun]
  refine h name ?_
  rcases List.mem_append.1 hname with hname | hname
  · exact List.mem_append_left _ (hv hname)
  · exact List.mem_append_right _ (ht hname)

/-- The context with another limit on rewrites. -/
def withLimit (c : Context) (limit : Nat) : Context :=
  { c with maxIterations := limit }

/-- All functions of the context are built in. -/
def OnlyBuiltins (c : Context) : Prop :=
  ∀ name f, c.functions.get? name = some f → ∃ b, f = .builtin b

theorem OnlyBuiltins.local {c : Context} (hc : c.OnlyBuiltins) : c.LocalFunctions := by
  intro name f hf
  obtain ⟨b, rfl⟩ := hc name f hf
  rfl

theorem Ground.local {c : Context} (hc : c.Ground) (limit : Nat) :
    (c.withLimit limit).LocalFunctions :=
  OnlyBuiltins.local (c := c.withLimit limit) hc.functions

/-- A variable that is not named like a function stands for a ground tree. -/
theorem Ground.lookup {c : Context} (hc : c.Ground) {name : String}
    (h : c.hasFunction name = false) : (c.lookup name).ground :=
  lookup_of_values hc.values (fun hf => by rw [h] at hf; cases hf) rfl

theorem Ground.bindVariable {c : Context} (hc : c.Ground) {name : String} {v : Expr}
    (h : c.hasFunction name = false) (hv : v.ground) : (c.bindVariable name v).Ground where
  functions := hc.functions
  values := values_bindVariable hc.values name hv
  apart other ho := by
    by_cases heq : other = name
    · subst heq
      exact h
    · refine hc.apart other ?_
      rwa [Context.bindVariable, Table.contains, Table.get?_insert_of_ne _ _ heq] at ho

theorem invoke_builtin {call : Invoke} {runBody : Expr → Context → Expr} (b : Builtin)
    (args : List Expr) (c : Context) : (Function.builtin b).invoke call runBody args c =
      (if b.arity.accepts args.length then b.apply args else .undefined, c) := by
  by_cases h : b.arity.accepts args.length <;> simp [Function.invoke, Function.arity, h]

/-- A call answers with what a built-in function gives, or with the undefined constant, and a limit does not
matter. -/
theorem OnlyBuiltins.exists_invoke {c : Context} (hc : c.OnlyBuiltins) (name : String)
    (args : List Expr) : ∃ r, (r = .undefined ∨ ∃ b : Builtin, r = b.apply args) ∧
      ∀ limit, Context.invoke name args (c.withLimit limit) = (r, c.withLimit limit) := by
  cases hf : c.functions.get? name with
  | none =>
    refine ⟨.undefined, .inl rfl, fun limit => ?_⟩
    have hf' : (c.withLimit limit).functions.get? name = none := hf
    rw [Context.invoke, maxHostDepth, invokeWith, hf']
  | some f =>
    obtain ⟨b, rfl⟩ := hc name f hf
    refine ⟨if b.arity.accepts args.length then b.apply args else .undefined, ?_, fun limit => ?_⟩
    · split
      · exact .inr ⟨b, rfl⟩
      · exact .inl rfl
    · have hf' : (c.withLimit limit).functions.get? name = some (.builtin b) := hf
      rw [Context.invoke, maxHostDepth, invokeWith, hf']
      exact invoke_builtin b args _

theorem Ground.invoke {c : Context} (hc : c.Ground) (name : String) (args : List Expr) :
    ∃ r, r.ground ∧ ∀ limit, Context.invoke name args (c.withLimit limit) =
      (r, c.withLimit limit) := by
  obtain ⟨r, hr, hcall⟩ := OnlyBuiltins.exists_invoke hc.functions name args
  refine ⟨r, ?_, hcall⟩
  obtain rfl | ⟨b, rfl⟩ := hr
  · rfl
  · exact b.ground_apply args

end Context

namespace Expr

theorem same_variable_of_ground {e : Expr} (he : e.ground) (name : String) :
    same e (.variable name) = false := by
  cases e with
  | «variable» => cases he
  | _ => rfl

/-- A tree that evaluates to a ground tree in the same number of rewrites in every context with local
functions, and changes none. -/
def Folds (e : Expr) : Prop :=
  ∃ n u, u.ground ∧ ∀ c : Context, c.LocalFunctions → EvaluatesIn n e c u c

theorem HasValue.folds {e u : Expr} (h : HasValue e u) : Folds e := by
  obtain ⟨n, hrun⟩ := h.foldsTo
  exact ⟨n, u, h.ground, hrun⟩

theorem folds_of_ground {e : Expr} (he : e.ground) : Folds e :=
  (hasValue_self he).folds

/-! ## Evaluations -/

/-- In the context `c`, whatever its limit, the tree evaluates to a ground tree in the same number of
rewrites, which leave a ground context with the same functions. -/
def Converges (e : Expr) (c : Context) : Prop :=
  ∃ (n : Nat) (u : Expr) (d : Context), u.ground ∧ d.Ground ∧ d.functions = c.functions ∧
    ∀ limit, EvaluatesIn n e (c.withLimit limit) u (d.withLimit limit)

/-- The same for trees that are evaluated one after the other. -/
def AllConverge (es : List Expr) (c : Context) : Prop :=
  ∃ (n : Nat) (us : List Expr) (d : Context), allGround us ∧ d.Ground ∧ d.functions = c.functions ∧
    ∀ limit, EvaluateIn n es (c.withLimit limit) us (d.withLimit limit)

section
variable {c : Context}

theorem Folds.converges {e : Expr} (he : Folds e) (hc : c.Ground) : Converges e c := by
  obtain ⟨n, u, hu, hrun⟩ := he
  exact ⟨n, u, c, hu, hc, rfl, fun limit => hrun _ (hc.local limit)⟩

/-- A rewrite to a ground tree. -/
theorem converges_of_step {e u : Expr} (hc : c.Ground) (hu : u.ground)
    (h : ∀ limit, evaluateStep? Context.invoke e (c.withLimit limit) = some (u, c.withLimit limit)) :
    Converges e c :=
  ⟨1, u, c, hu, hc, rfl, fun limit =>
    .next (hc.local limit) (h limit) (.rest (step_none_of_ground hu))⟩

/-- What stands in a frame converges first. -/
theorem Converges.frame {k : Expr → Expr} (hk : Frame k) {e : Expr} (hc : c.Ground)
    (he : Converges e c)
    (h : ∀ u d, u.ground → d.Ground → d.functions = c.functions → Converges (k u) d) :
    Converges (k e) c := by
  obtain ⟨m, u, d, hu, hd, hfun, hrun⟩ := he
  obtain ⟨n, v, d', hv, hd', hfun', hrun'⟩ := h u d hu hd hfun
  exact ⟨m + n, v, d', hv, hd', hfun'.trans hfun, fun limit =>
    hk.evaluatesIn (hc.local limit) (hrun limit) (hrun' limit)⟩

/-- The elements of a list converge first. -/
theorem AllConverge.frame {k : List Expr → Expr} (hk : ListFrame k) {es : List Expr} (hc : c.Ground)
    (hes : AllConverge es c)
    (h : ∀ us d, allGround us → d.Ground → d.functions = c.functions → Converges (k us) d) :
    Converges (k es) c := by
  obtain ⟨m, us, d, hus, hd, hfun, hrun⟩ := hes
  obtain ⟨n, v, d', hv, hd', hfun', hrun'⟩ := h us d hus hd hfun
  refine ⟨m + n, v, d', hv, hd', hfun'.trans hfun, fun limit => ?_⟩
  refine hk.evaluatesIn (hc.local limit) (hrun limit) (fun w hw => ?_) (hrun' limit)
  exact variableNames_of_ground (allGround_iff.1 hus w (List.dropLast_subset us hw))

end

mutual

theorem converges : ∀ {e : Expr} {c : Context}, c.Ground → c.Avoids e.variableNames e.targets →
    Converges e c
  | .number _, _, hc, _ => (folds_of_ground rfl).converges hc
  | .constant kind, c, hc, _ => by
    cases hk : kind.value? with
    | none =>
      have hk : kind = .undefined := by cases kind <;> first | rfl | cases hk
      exact (folds_of_ground (by rw [hk]; rfl)).converges hc
    | some x =>
      refine converges_of_step hc (ground_ofFloat x) fun limit => ?_
      simp only [evaluateStep?, hk, Option.map_some]
  | .variable name, c, hc, h => by
    have hground := hc.lookup (h name (by simp [variableNames]))
    refine converges_of_step hc hground fun limit => ?_
    have hlookup : (c.withLimit limit).lookup name = c.lookup name := rfl
    simp only [evaluateStep?, hlookup, same_variable_of_ground hground, Bool.false_eq_true, if_false]
  | .parens inner, c, hc, h => by
    refine (converges (e := inner) hc h).frame frame_parens hc fun u d hu hd _ => ?_
    refine converges_of_step hd hu fun limit => ?_
    simp only [evaluateStep?, step_none_of_ground hu]
  | .unary side op operand, c, hc, h => by
    refine (converges (e := operand) hc h).frame (frame_unary side op) hc fun u d hu hd _ => ?_
    exact (hasValue_unary side op hu).folds.converges hd
  | .binary left op right, c, hc, h => by
    have hleft := converges hc (h.mono rfl (List.subset_append_left _ _) (List.subset_append_left _ _))
    refine hleft.frame (frame_left op right) hc fun lv d hl hd hfun => ?_
    have hright := converges hd
      (h.mono hfun (List.subset_append_right _ _) (List.subset_append_right _ _))
    have hrest : ∀ c, evaluateStep? Context.invoke lv c = none := fun c => step_none_of_ground hl
    refine hright.frame (frame_right op hrest) hd fun rv d' hr hd' _ => ?_
    exact (hasValue_binary op hl hr).folds.converges hd'
  | .assign target value, c, hc, h => by
    have hvalue : Converges value c :=
      converges hc (h.mono rfl (List.Subset.refl _) (List.subset_cons_self _ _))
    refine hvalue.frame (frame_assign target) hc fun u d hu hd hfun => ?_
    have htarget : d.hasFunction target = false := by
      rw [Context.hasFunction, hfun]
      exact h target (by simp [targets])
    refine ⟨1, u, d.bindVariable target u, hu, hd.bindVariable htarget hu, rfl, fun limit => ?_⟩
    have hstep : evaluateStep? Context.invoke (.assign target u) (d.withLimit limit) =
        some (u, (d.bindVariable target u).withLimit limit) := by
      simp only [evaluateStep?, step_none_of_ground hu]
      rfl
    exact .next (hd.local limit) hstep (.rest (step_none_of_ground hu))
  | .call name args, c, hc, h => by
    refine (allConverge hc h).frame (listFrame_call name) hc fun us d hus hd _ => ?_
    obtain ⟨r, hr, hcall⟩ := hd.invoke name us
    refine converges_of_step hd hr fun limit => ?_
    simp only [evaluateStep?, first_none_of_allGround hus, hcall]
  | .collection kind elements, c, hc, h => by
    refine (allConverge hc h).frame (listFrame_collection kind) hc fun us d hus hd _ => ?_
    exact (folds_of_ground (e := .collection kind us) hus).converges hd

theorem allConverge : ∀ {es : List Expr} {c : Context}, c.Ground →
    c.Avoids (allVariableNames es) (allTargets es) → AllConverge es c
  | [], c, hc, _ => ⟨0, [], c, rfl, hc, rfl, fun _ => .nil⟩
  | e :: es, c, hc, h => by
    obtain ⟨m, u, d, hu, hd, hfun, hrun⟩ :=
      converges hc (h.mono rfl (List.subset_append_left _ _) (List.subset_append_left _ _))
    obtain ⟨n, us, d', hus, hd', hfun', hruns⟩ :=
      allConverge hd (h.mono hfun (List.subset_append_right _ _) (List.subset_append_right _ _))
    exact ⟨m + n, u :: us, d', by simp [allGround, hu, hus], hd', hfun'.trans hfun, fun limit =>
      .cons (hrun limit) (hruns limit)⟩

end

/-- Evaluates trees one after the other in one context: their results, and the context after them. -/
def evaluateAll : List Expr → Context → List (Except (Unsettled Expr) Expr) × Context
  | [], c => ([], c)
  | t :: ts, c =>
    let (result, c) := t.evaluate c
    let (results, c) := evaluateAll ts c
    (result :: results, c)

/-- A tree that converges evaluates to one ground tree, whatever the limit, if it is high enough. -/
theorem Converges.evaluate {t : Expr} {c : Context} (h : Converges t c) :
    ∃ (n : Nat) (u : Expr) (d : Context), u.ground ∧ d.Ground ∧ d.functions = c.functions ∧
      ∀ limit, n ≤ limit → t.evaluate (c.withLimit limit) = (.ok u, d.withLimit limit) := by
  obtain ⟨n, u, d, hu, hd, hfun, hrun⟩ := h
  exact ⟨n, u, d, hu, hd, hfun, fun limit hn => evaluate_of_evaluatesIn (hrun limit) hn⟩

/-- **Evaluation converges.** Let all functions of a context be built in, all its values ground and no
variable named like a function. A tree without function names among its variables and targets evaluates
to a ground tree, if enough rewrites are allowed, and the context is such a context again. So do the
trees of a session, one after the other. -/
theorem evaluate_converges {c : Context} (hc : c.Ground) :
    (∀ t : Expr, c.Avoids t.variableNames t.targets →
      ∃ (n : Nat) (u : Expr) (d : Context), u.ground ∧ d.Ground ∧ d.functions = c.functions ∧
        ∀ limit, n ≤ limit → t.evaluate (c.withLimit limit) = (.ok u, d.withLimit limit)) ∧
    (∀ ts : List Expr, (∀ t ∈ ts, c.Avoids t.variableNames t.targets) →
      ∃ (n : Nat) (us : List Expr) (d : Context), us.length = ts.length ∧ (∀ u ∈ us, u.ground) ∧
        d.Ground ∧ d.functions = c.functions ∧
        ∀ limit, n ≤ limit →
          evaluateAll ts (c.withLimit limit) = (us.map .ok, d.withLimit limit)) := by
  refine ⟨fun t ht => (converges hc ht).evaluate, fun ts => ?_⟩
  induction ts generalizing c with
  | nil =>
    intro _
    exact ⟨0, [], c, rfl, by simp, hc, rfl, fun _ _ => rfl⟩
  | cons t ts ih =>
    intro hts
    obtain ⟨m, u, d, hu, hd, hfun, ht⟩ := (converges hc (hts t List.mem_cons_self)).evaluate
    have hrest : ∀ t ∈ ts, d.Avoids t.variableNames t.targets := fun t ht =>
      (hts t (List.mem_cons_of_mem _ ht)).mono hfun (List.Subset.refl _) (List.Subset.refl _)
    obtain ⟨n, us, d', hlen, hus, hd', hfun', hts'⟩ := ih hd hrest
    refine ⟨max m n, u :: us, d', by simp [hlen], by simpa using ⟨hu, hus⟩, hd',
      hfun'.trans hfun, fun limit hlimit => ?_⟩
    rw [evaluateAll, ht limit (by omega)]
    dsimp only
    rw [hts' limit (by omega)]
    rfl

/-- The context with the built-in functions and no variables is a ground one. -/
theorem ground_withBuiltins : Context.withBuiltins.Ground where
  functions name f hf := by
    have hentries : Context.withBuiltins.functions.entries =
        Builtin.all.map fun b => (b.name, .builtin b) := rfl
    have hmem := Table.mem_of_lookup (show Table.lookup name _ = some f from hf)
    rw [hentries] at hmem
    obtain ⟨b, -, hb⟩ := List.mem_map.1 hmem
    exact ⟨b, (congrArg Prod.snd hb).symm⟩
  values name v hv := by
    have hentries : Context.withBuiltins.values.entries = [] := rfl
    rw [Table.get?, hentries] at hv
    cases hv
  apart name h := by
    have hentries : Context.withBuiltins.values.entries = [] := rfl
    rw [Table.contains, Table.get?, hentries] at h
    cases h

/-- `x = [1, 2]` and then `max(x * y)` have ground values. -/
theorem evaluate_converges_session :
    let ts := [assign "x" (.collection .vector [.number 1, .number 2]),
      call "max" [.binary (.variable "x") .mul (.variable "y")]]
    ∃ (n : Nat) (us : List Expr) (d : Context), us.length = ts.length ∧ (∀ u ∈ us, u.ground) ∧
      d.Ground ∧ d.functions = Context.withBuiltins.functions ∧
      ∀ limit, n ≤ limit →
        evaluateAll ts (Context.withBuiltins.withLimit limit) = (us.map .ok, d.withLimit limit) := by
  intro ts
  refine (evaluate_converges ground_withBuiltins).2 ts ?_
  have hall : ts.all (fun t => (t.variableNames ++ t.targets).all fun name =>
      !Context.withBuiltins.hasFunction name) = true := by decide +kernel
  intro t ht name hname
  simpa using List.all_eq_true.1 (List.all_eq_true.1 hall t ht) name hname

end Expr

end Formula
