import Formula.Proofs.Evaluation.Ground
import Formula.Proofs.Evaluation.Kept

/-!
# Tuples of one element

What a tuple of one element would be written as is an expression in parentheses, so no tree that is read
has such a tuple, and evaluation with built-in functions makes none (`NoSingletons.evaluate`): folding keeps
the number of elements of a collection, and so do functions that apply to every element.
-/

set_option autoImplicit false

namespace Formula

namespace Expr

/-- No tuple of one element stands in a tree. -/
def NoSingletons (e : Expr) : Prop :=
  ∀ es, .collection .tuple es ∈ e.subtrees → es.length ≠ 1

theorem mem_allSubtrees {s : Expr} {es : List Expr} :
    s ∈ allSubtrees es ↔ ∃ e ∈ es, s ∈ e.subtrees := by
  induction es with
  | nil => simp [allSubtrees]
  | cons e es ih => simp [allSubtrees, ih]

theorem noSingletons_list {es : List Expr} :
    (∀ fs, .collection .tuple fs ∈ allSubtrees es → fs.length ≠ 1) ↔ ∀ e ∈ es, e.NoSingletons := by
  constructor
  · intro h e he fs hfs
    exact h fs (mem_allSubtrees.2 ⟨e, he, hfs⟩)
  · intro h fs hfs
    obtain ⟨e, he, hfs⟩ := mem_allSubtrees.1 hfs
    exact h e he fs hfs

theorem noSingletons_collection {kind : CollectionKind} {es : List Expr} :
    (collection kind es).NoSingletons ↔
      (kind = .tuple → es.length ≠ 1) ∧ ∀ e ∈ es, e.NoSingletons := by
  rw [← noSingletons_list]
  simp only [NoSingletons, subtrees, List.mem_cons, collection.injEq]
  constructor
  · exact fun h => ⟨fun hkind => h es (.inl ⟨hkind.symm, rfl⟩), fun fs hfs => h fs (.inr hfs)⟩
  · rintro ⟨hkind, hes⟩ fs (⟨hk, rfl⟩ | hfs)
    · exact hkind hk.symm
    · exact hes fs hfs

theorem noSingletons_call {name : String} {es : List Expr} :
    (call name es).NoSingletons ↔ ∀ e ∈ es, e.NoSingletons := by
  rw [← noSingletons_list]
  simp [NoSingletons, subtrees]

theorem noSingletons_ofFloat (x : Float) : (ofFloat x).NoSingletons := by
  unfold ofFloat
  split <;> simp [NoSingletons, subtrees]

theorem kept_noSingletons : Kept NoSingletons where
  undefined := by simp [NoSingletons, subtrees]
  ofFloat := noSingletons_ofFloat
  unary h := by simpa [NoSingletons, subtrees] using h
  binary hl hr := by
    simp only [NoSingletons, subtrees, List.mem_cons, reduceCtorEq, false_or, List.mem_append] at *
    exact fun es hes => hes.elim (hl es) (hr es)
  elements h := (noSingletons_collection.1 h).2
  collection h hlength hfs := by
    refine noSingletons_collection.2 ⟨fun hkind => ?_, hfs⟩
    rw [hlength]
    exact (noSingletons_collection.1 h).1 hkind
  inner h := by simpa [NoSingletons, subtrees] using h
  parens _ h := by simpa [NoSingletons, subtrees] using h
  operand h := by simpa [NoSingletons, subtrees] using h
  operands h := by
    simp only [NoSingletons, subtrees, List.mem_cons, reduceCtorEq, false_or, List.mem_append] at *
    exact ⟨fun es hes => h es (.inl hes), fun es hes => h es (.inr hes)⟩
  value h := by simpa [NoSingletons, subtrees] using h
  assign _ h := by simpa [NoSingletons, subtrees] using h
  args h := noSingletons_call.1 h
  call _ _ h := noSingletons_call.2 h

end Expr

/-! ## Evaluation -/

/-- All functions are built in, and no value has a tuple of one element. -/
structure Context.NoSingletons (c : Context) : Prop where
  functions : c.OnlyBuiltins
  values : ∀ name v, c.values.get? name = some v → v.NoSingletons

namespace Context.NoSingletons

open Formula.Expr

variable {c : Context}

theorem lookup (hc : c.NoSingletons) (name : String) : (c.lookup name).NoSingletons :=
  lookup_of_values hc.values (fun _ => by simp [Expr.NoSingletons, subtrees])
    kept_noSingletons.undefined

theorem invoke (hc : c.NoSingletons) (name : String) {args : List Expr}
    (h : ∀ e ∈ args, e.NoSingletons) : (Context.invoke name args c).1.NoSingletons := by
  obtain ⟨r, hr, hcall⟩ := hc.functions.exists_invoke name args
  have hcall : Context.invoke name args c = (r, c) := hcall c.maxIterations
  rw [hcall]
  obtain rfl | ⟨b, rfl⟩ := hr
  · exact kept_noSingletons.undefined
  · exact kept_noSingletons.apply b h

theorem bindVariable (hc : c.NoSingletons) (name : String) {v : Expr} (hv : v.NoSingletons) :
    (c.bindVariable name v).NoSingletons where
  functions := hc.functions
  values := values_bindVariable hc.values name hv

/-- A rewrite makes no tuple of one element. -/
theorem step (hc : c.NoSingletons) {e e' : Expr} {c' : Context} (he : e.NoSingletons)
    (h : evaluateStep? Context.invoke e c = some (e', c')) : c'.NoSingletons ∧ e'.NoSingletons := by
  refine kept_noSingletons.atPlace (fun {r r'} hr hredex => ?_) (atPlace_of_step h) he
  have hr' : r'.NoSingletons := kept_noSingletons.redex (fun name _ => hc.lookup name)
    (fun name args hargs => hc.invoke name (kept_noSingletons.args hargs)) hredex hr
  obtain rfl | ⟨target, -, rfl⟩ := hredex.context (Context.quiet_invoke hc.functions.local)
  · exact ⟨hc, hr'⟩
  · exact ⟨hc.bindVariable target hr', hr'⟩

end Context.NoSingletons

/-- What a tree without tuples of one element evaluates to has none either, and the context stays without. -/
theorem Expr.NoSingletons.evaluate {e : Expr} {c : Context} (he : e.NoSingletons) (hc : c.NoSingletons) :
    (e.evaluate c).2.NoSingletons ∧ ∀ u, (e.evaluate c).1 = .ok u → u.NoSingletons := by
  have hstep : ∀ (a b : Expr) (s t : Context), a.NoSingletons ∧ s.NoSingletons →
      evaluateStep? Context.invoke a s = some (b, t) → b.NoSingletons ∧ t.NoSingletons :=
    fun _ _ _ _ h hab => (h.2.step h.1 hab).symm
  have hrun : (∃ b : Expr, b.NoSingletons ∧ (e.evaluate c).2.NoSingletons) ∧
      ∀ v, (e.evaluate c).1 = .ok v → ∃ t : Context, v.NoSingletons ∧ t.NoSingletons :=
    settle_invariant hstep ⟨he, hc⟩
  obtain ⟨⟨_, -, hstate⟩, hresult⟩ := hrun
  refine ⟨hstate, fun u hu => ?_⟩
  obtain ⟨_, hu, -⟩ := hresult u hu
  exact hu

end Formula
