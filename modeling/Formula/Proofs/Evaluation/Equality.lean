import Formula.Context.Evaluate
import Mathlib.Data.List.Forall2
import Mathlib.Logic.Relation

/-!
# Comparing collections

Whether two lists of elements are equal may be open, when elements are neither numbers nor collections.
The answer, open or not, is the same with both sides exchanged (`equalLists?_comm`) and with other brackets
(`equalLists?_allAsVectors`). An answer that is not open never changes: what elements are replaced by may
differ in all but numbers and the lengths of collections (`KeepsShape`, `equalLists?_of_keepsShape`), and
evaluation keeps both (`keepsShape_evaluates`).

**Main statement** (`equalLists?_lasting`): all this about evaluation in any contexts.
-/

set_option autoImplicit false

namespace Formula

/-! ## Equality of doubles -/

namespace Number

open Float.Model

theorem compare_swap (f g : UnpackedFloat) : g.compare f = (f.compare g).map Ordering.swap := by
  cases f with
  | notANumber => cases g <;> rfl
  | infinity s =>
    cases g with
    | infinity t => cases s <;> cases t <;> rfl
    | notANumber => rfl
    | zero t => cases s <;> rfl
    | finite t => cases s <;> cases t <;> rfl
  | zero s =>
    cases g with
    | infinity t => cases t <;> rfl
    | notANumber => rfl
    | zero t => rfl
    | finite t => cases t <;> rfl
  | finite s m e hm =>
    cases g with
    | infinity t => cases s <;> cases t <;> rfl
    | notANumber => cases s <;> rfl
    | zero t => cases s <;> rfl
    | finite t n d hn =>
      have h : (compare d e).then (compare n m) = ((compare e d).then (compare m n)).swap := by
        rw [Ordering.swap_then, ← Std.OrientedOrd.eq_swap, ← Std.OrientedOrd.eq_swap]
      cases s with
      | positive =>
        cases t with
        | positive => exact congrArg some h
        | negative => rfl
      | negative =>
        cases t with
        | positive => rfl
        | negative => exact congrArg (fun o => some o.swap) h

/-- Equality of doubles is symmetric, though not reflexive. -/
theorem float_beq_comm (x y : Float) : (x == y) = (y == x) := by
  change (x.toModel.unpack.compare y.toModel.unpack == some .eq) =
    (y.toModel.unpack.compare x.toModel.unpack == some .eq)
  rw [compare_swap x.toModel.unpack]
  cases x.toModel.unpack.compare y.toModel.unpack with
  | none => rfl
  | some o => cases o <;> rfl

end Number

namespace Expr

/-! ## Exchanging the sides -/

mutual

theorem equalElements?_comm : ∀ s t : Expr, equalElements? s t = equalElements? t s
  | .number x, t => by cases t <;> simp [equalElements?, Number.float_beq_comm x]
  | .collection _ ss, t => by
    cases t with
    | collection _ ts => simp only [equalElements?, equalLists?, equalPairs?_comm ss ts, eq_comm]
    | _ => simp [equalElements?]
  | .constant _, t | .variable _, t | .parens _, t | .unary .., t | .binary .., t | .assign .., t
  | .call .., t => by cases t <;> simp [equalElements?]

theorem equalPairs?_comm : ∀ ss ts : List Expr, equalPairs? ss ts = equalPairs? ts ss
  | [], ts => by cases ts <;> simp [equalPairs?]
  | s :: ss, [] => by simp [equalPairs?]
  | s :: ss, t :: ts => by
    rw [equalPairs?, equalPairs?, equalElements?_comm s t, equalPairs?_comm ss ts]

end

theorem equalLists?_comm (ss ts : List Expr) : equalLists? ss ts = equalLists? ts ss := by
  simp only [equalLists?, equalPairs?_comm ss ts, eq_comm]

/-! ## Other brackets -/

mutual

/-- A tree with the brackets of a vector for every collection in it. -/
def asVectors : Expr → Expr
  | .number x => .number x
  | .constant kind => .constant kind
  | .variable name => .variable name
  | .parens inner => .parens inner.asVectors
  | .unary side op operand => .unary side op operand.asVectors
  | .binary left op right => .binary left.asVectors op right.asVectors
  | .assign target value => .assign target value.asVectors
  | .call name args => .call name (allAsVectors args)
  | .collection _ elements => .collection .vector (allAsVectors elements)

/-- Several trees with the brackets of a vector for every collection in them. -/
def allAsVectors : List Expr → List Expr
  | [] => []
  | e :: es => e.asVectors :: allAsVectors es

end

theorem length_allAsVectors (es : List Expr) : (allAsVectors es).length = es.length := by
  induction es with
  | nil => rfl
  | cons e es ih => rw [allAsVectors, List.length_cons, List.length_cons, ih]

mutual

theorem equalElements?_asVectors : ∀ s t : Expr,
    equalElements? s.asVectors t.asVectors = equalElements? s t
  | .number x, t => by cases t <;> simp [asVectors, equalElements?]
  | .collection _ ss, t => by
    cases t with
    | collection _ ts =>
      simp only [asVectors, equalElements?, equalLists?, length_allAsVectors,
        equalPairs?_allAsVectors ss ts]
    | _ => simp [asVectors, equalElements?]
  | .constant _, t | .variable _, t | .parens _, t | .unary .., t | .binary .., t | .assign .., t
  | .call .., t => by cases t <;> simp [asVectors, equalElements?]

theorem equalPairs?_allAsVectors : ∀ ss ts : List Expr,
    equalPairs? (allAsVectors ss) (allAsVectors ts) = equalPairs? ss ts
  | [], ts => by cases ts <;> simp [allAsVectors, equalPairs?]
  | s :: ss, [] => by simp [allAsVectors, equalPairs?]
  | s :: ss, t :: ts => by
    simp only [allAsVectors, equalPairs?, equalElements?_asVectors s t,
      equalPairs?_allAsVectors ss ts]

end

theorem equalLists?_allAsVectors (ss ts : List Expr) :
    equalLists? (allAsVectors ss) (allAsVectors ts) = equalLists? ss ts := by
  simp only [equalLists?, length_allAsVectors, equalPairs?_allAsVectors]

/-! ## Replacing elements -/

/-- Numbers are replaced by themselves only, and collections by collections of as many elements. -/
structure KeepsShape (R : Expr → Expr → Prop) : Prop where
  number {x : Float} {e : Expr} : R (.number x) e → e = .number x
  collection {kind : CollectionKind} {es : List Expr} {e : Expr} : R (.collection kind es) e →
    ∃ fs, e = .collection kind fs ∧ List.Forall₂ R es fs

section
variable {R : Expr → Expr → Prop}

mutual

theorem equalElements?_of_keepsShape (hR : KeepsShape R) : ∀ {s t s' t' : Expr} {equal : Bool},
    equalElements? s t = some equal → R s s' → R t t' → equalElements? s' t' = some equal
  | .number x, t, s', t', equal, h, hs, ht => by
    rw [hR.number hs]
    cases t with
    | number y => rwa [hR.number ht]
    | collection _ ts =>
      obtain ⟨us, rfl, -⟩ := hR.collection ht
      simpa only [equalElements?] using h
    | _ => simp [equalElements?] at h
  | .collection _ ss, t, s', t', equal, h, hs, ht => by
    obtain ⟨vs, rfl, hvs⟩ := hR.collection hs
    cases t with
    | number y =>
      rw [hR.number ht]
      simpa only [equalElements?] using h
    | collection _ ts =>
      obtain ⟨us, rfl, hus⟩ := hR.collection ht
      simp only [equalElements?, equalLists?, ← hvs.length_eq, ← hus.length_eq] at h ⊢
      split at h
      · next hl => rw [if_pos hl]; exact equalPairs?_of_keepsShape hR h hvs hus
      · next hl => rw [if_neg hl]; exact h
    | _ => simp [equalElements?] at h
  | .constant _, t, _, _, _, h, _, _ | .variable _, t, _, _, _, h, _, _
  | .parens _, t, _, _, _, h, _, _ | .unary .., t, _, _, _, h, _, _
  | .binary .., t, _, _, _, h, _, _ | .assign .., t, _, _, _, h, _, _
  | .call .., t, _, _, _, h, _, _ => by cases t <;> simp [equalElements?] at h

theorem equalPairs?_of_keepsShape (hR : KeepsShape R) : ∀ {ss ts vs us : List Expr} {equal : Bool},
    equalPairs? ss ts = some equal → List.Forall₂ R ss vs → List.Forall₂ R ts us →
      equalPairs? vs us = some equal
  | [], _, _, _, _, h, hv, _ => by
    cases hv
    simpa [equalPairs?] using h
  | s :: ss, [], _, _, _, h, hv, hu => by
    cases hu
    cases hv
    simpa [equalPairs?] using h
  | s :: ss, t :: ts, _, _, _, h, hv, hu => by
    cases hv with
    | cons hv hvs =>
      cases hu with
      | cons hu hus =>
        simp only [equalPairs?] at h ⊢
        split at h
        · cases h
        · next d hd =>
          obtain ⟨b, hb, rfl⟩ := Option.map_eq_some_iff.1 h
          rw [equalElements?_of_keepsShape hR hd hv hu]
          simp [equalPairs?_of_keepsShape hR hb hvs hus]

end

/-- A comparison that is decided stays so, whatever the open elements become. -/
theorem equalLists?_of_keepsShape (hR : KeepsShape R) {ss ts vs us : List Expr} {equal : Bool}
    (h : equalLists? ss ts = some equal) (hv : List.Forall₂ R ss vs) (hu : List.Forall₂ R ts us) :
    equalLists? vs us = some equal := by
  rw [equalLists?, ← hv.length_eq, ← hu.length_eq]
  rw [equalLists?] at h
  split at h
  · next hl => rw [if_pos hl]; exact equalPairs?_of_keepsShape hR h hv hu
  · next hl => rw [if_neg hl]; exact h

end

/-! ## Evaluation in any contexts -/

/-- One evaluation rewrite, in some context, makes the second tree of the first. -/
def RewritesTo (e e' : Expr) : Prop :=
  ∃ c c', evaluateStep? Context.invoke e c = some (e', c')

/-- Any number of evaluation rewrites, each in a context of its own, make the second tree of the first. -/
abbrev Evaluates : Expr → Expr → Prop :=
  Relation.ReflTransGen RewritesTo

theorem forall₂_trans {R : Expr → Expr → Prop} (hR : ∀ {a b c}, R a b → R b c → R a c)
    {es fs gs : List Expr} (h : List.Forall₂ R es fs) (h' : List.Forall₂ R fs gs) :
    List.Forall₂ R es gs := by
  induction h generalizing gs with
  | nil => exact h'
  | cons hab _ ih =>
    cases h' with
    | cons hbc hfs => exact .cons (hR hab hbc) (ih hfs)

theorem evaluates_of_first : ∀ {es es' : List Expr} {c c' : Context},
    evaluateFirst? Context.invoke es c = some (es', c') → List.Forall₂ Evaluates es es'
  | [], _, _, _, h => by cases h
  | e :: es, _, c, _, h => by
    rw [evaluateFirst?] at h
    split at h
    · next he =>
      cases h
      exact .cons (.single ⟨c, _, he⟩) (List.forall₂_same.2 fun _ _ => .refl)
    · simp only [Option.map_eq_some_iff, Prod.exists] at h
      obtain ⟨fs, d, hfs, h⟩ := h
      cases h
      exact .cons .refl (evaluates_of_first hfs)

theorem Evaluates.number {x : Float} {e : Expr} (h : Evaluates (.number x) e) : e = .number x := by
  induction h with
  | refl => rfl
  | tail _ hstep ih =>
    obtain ⟨c, c', hstep⟩ := hstep
    subst ih
    cases hstep

theorem Evaluates.collection {kind : CollectionKind} {es : List Expr} {e : Expr}
    (h : Evaluates (.collection kind es) e) :
    ∃ fs, e = .collection kind fs ∧ List.Forall₂ Evaluates es fs := by
  induction h with
  | refl => exact ⟨es, rfl, List.forall₂_same.2 fun _ _ => .refl⟩
  | tail _ hstep ih =>
    obtain ⟨fs, rfl, hfs⟩ := ih
    obtain ⟨c, c', hstep⟩ := hstep
    simp only [evaluateStep?, Option.map_eq_some_iff, Prod.exists] at hstep
    obtain ⟨gs, d, hgs, hstep⟩ := hstep
    cases hstep
    exact ⟨gs, rfl, forall₂_trans .trans hfs (evaluates_of_first hgs)⟩

theorem keepsShape_evaluates : KeepsShape Evaluates :=
  ⟨Evaluates.number, Evaluates.collection⟩

/-- Comparing two lists of elements gives the same with the sides exchanged and with other brackets at any
depth, also when it is open. Once it is decided, evaluation of the elements in any contexts changes
nothing. -/
theorem equalLists?_lasting (a b : List Expr) :
    equalLists? a b = equalLists? b a ∧
      (∀ a' b', allAsVectors a' = allAsVectors a → allAsVectors b' = allAsVectors b →
        equalLists? a' b' = equalLists? a b) ∧
      ∀ equal a' b', equalLists? a b = some equal → List.Forall₂ Evaluates a a' →
        List.Forall₂ Evaluates b b' → equalLists? a' b' = some equal := by
  refine ⟨equalLists?_comm a b, fun a' b' ha hb => ?_, fun equal a' b' h ha hb => ?_⟩
  · rw [← equalLists?_allAsVectors, ha, hb, equalLists?_allAsVectors]
  · exact equalLists?_of_keepsShape keepsShape_evaluates h ha hb

/-- `[1, [x]]` and `[1, [x, 2]]` are unequal in either order, as `(1, (x))`, and where `x` has become 3. -/
theorem equalLists?_lasting_variable :
    let x := Expr.variable "x"
    let a := [number 1, collection .vector [x]]
    let b := [number 1, collection .vector [x, number 2]]
    equalLists? a b = some false ∧ equalLists? a b = equalLists? b a ∧
      equalLists? [number 1, collection .tuple [x]] b = equalLists? a b ∧
      equalLists? [number 1, collection .vector [number 3]] b = some false := by
  intro x a b
  have h : equalLists? a b = some false := by simp [a, b, equalLists?, equalPairs?, equalElements?]
  have hstep : RewritesTo (collection .vector [x]) (collection .vector [number 3]) :=
    ⟨Context.empty.bindVariable "x" (number 3), _, rfl⟩
  obtain ⟨hcomm, hkinds, hlast⟩ := equalLists?_lasting a b
  refine ⟨h, hcomm, hkinds _ b rfl rfl, hlast false _ b h ?_ ?_⟩
  · exact .cons .refl (.cons (.single hstep) .nil)
  · exact List.forall₂_same.2 fun _ _ => .refl

end Expr

end Formula
