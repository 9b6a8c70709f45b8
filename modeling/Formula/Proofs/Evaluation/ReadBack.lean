import Formula.Proofs.Evaluation.Singletons
import Formula.Proofs.Reader.Printed
import Formula.Proofs.Reader.Unbalanced

/-!
# Values are read back from their texts

The text of a value need not be read as the value: signs are read as operators and infinities as constants.
It is read as a tree that evaluates to it (`RereadAs`), by induction on the value. Tuples of one element have
to be left out, as their texts are read as parentheses; but neither reading nor evaluation makes any
(`read_evaluate_chars`).
-/

set_option autoImplicit false

namespace Formula

open Formula.Expr

namespace Expr

/-- The trees without variables that evaluation can end at. -/
structure IsValue (u : Expr) : Prop where
  ground : u.ground
  numbers : ∀ x ∈ u.numbers, x.isNaN = false
  noSingletons : u.NoSingletons

/-- All finite numbers of the tree are read from their texts. -/
def NumbersReadBack (u : Expr) : Prop :=
  ∀ x ∈ u.numbers, x.isFinite = true → Number.read? (Number.text x) = some x

theorem IsValue.elements {kind : CollectionKind} {us : List Expr} (h : (collection kind us).IsValue) :
    ∀ u ∈ us, u.IsValue := fun u hu =>
  ⟨allGround_iff.1 (show allGround us from h.ground) u hu,
    fun x hx => h.numbers x (mem_allNumbers.2 ⟨u, hu, hx⟩),
    (noSingletons_collection.1 h.noSingletons).2 u hu⟩

/-- The text of `u` is read as `e`, and this evaluates to `u`. -/
structure RereadAs (e u : Expr) : Prop where
  printed : Printed u.chars e
  foldsTo : FoldsTo e u

/-! ## Numbers -/

/-- Negating a number is one rewrite. -/
theorem foldsTo_negate {x : Float} (h : (-x).isNaN = false) :
    FoldsTo (.unary .before .negate (.number x)) (.number (-x)) := by
  refine .of_step (fun c => ?_) (foldsTo_self (e := .number (-x)) rfl)
  simp only [evaluateStep?, foldUnary?, UnaryOperator.apply, Option.map_some, ofFloat_of_isNaN h]

theorem isNaN_infinity : Number.infinity.isNaN = false := by decide +kernel

theorem step_infinity (c : Context) : evaluateStep? Context.invoke (.constant .infinity) c =
    some (.number Number.infinity, c) := by
  simp only [evaluateStep?, Constant.value?, Option.map_some, ofFloat_of_isNaN isNaN_infinity]

theorem rereadAs_infinity : RereadAs (.constant .infinity) (.number Number.infinity) where
  printed := by
    rw [chars, Number.text_infinity]
    exact .word (.constant .infinity)
  foldsTo := .of_step step_infinity (foldsTo_self rfl)

theorem rereadAs_neg_infinity (h : (-Number.infinity).isNaN = false) :
    RereadAs (.unary .before .negate (.constant .infinity)) (.number (-Number.infinity)) where
  printed := by
    rw [chars, Number.text_neg_infinity]
    exact .negated (.constant .infinity)
  foldsTo := .of_step (fun c => frame_unary .before .negate _ c _ c (step_infinity c))
    (foldsTo_negate h)

theorem rereadAs_unsigned {x : Float} (hfinite : x.isFinite = true) (hnan : x.isNaN = false)
    (hsign : Number.isNegative x = false) (hread : Number.read? (Number.text x) = some x) :
    RereadAs (.number x) (.number x) where
  printed := by
    have hword := PrintedWord.number (Number.text_mem_number hfinite hsign) hread
    rw [ofFloat_of_isNaN hnan] at hword
    exact .word hword
  foldsTo := foldsTo_self rfl

theorem exists_rereadAs_negative {x : Float} (hfinite : x.isFinite = true) (hnan : x.isNaN = false)
    (hsign : Number.isNegative x = true) (hread : Number.read? (Number.text x) = some x) :
    ∃ e, RereadAs e (.number x) := by
  obtain ⟨w, hw, htext⟩ := Number.exists_text_negative hfinite hsign hnan
  rw [htext, Number.read?] at hread
  obtain ⟨m, hm, rfl⟩ := Option.map_eq_some_iff.1 hread
  have hmnan : m.isNaN = false := by
    by_contra h
    rw [Number.isNaN_neg (by simpa using h)] at hnan
    cases hnan
  have hword : PrintedWord w (.number m) := by
    rw [← ofFloat_of_isNaN hmnan]
    exact .number hw (by rw [Number.read?_of_mem_number hw, hm])
  refine ⟨.unary .before .negate (.number m), ?_, foldsTo_negate hnan⟩
  rw [chars, htext]
  exact .negated hword

/-- Every number but NaN is read back, if it is when it is finite. -/
theorem exists_rereadAs_number {x : Float} (hnan : x.isNaN = false)
    (hread : x.isFinite = true → Number.read? (Number.text x) = some x) :
    ∃ e, RereadAs e (.number x) := by
  by_cases hfinite : x.isFinite = true
  · by_cases hsign : Number.isNegative x = true
    · exact exists_rereadAs_negative hfinite hnan hsign (hread hfinite)
    · exact ⟨_, rereadAs_unsigned hfinite hnan (by simpa using hsign) (hread hfinite)⟩
  · rcases Number.infinite_cases (by simpa using hfinite) hnan with rfl | rfl
    · exact ⟨_, rereadAs_infinity⟩
    · exact ⟨_, rereadAs_neg_infinity hnan⟩

/-! ## Collections -/

theorem listChars_eq_joined (es : List Expr) : listChars es = joined (es.map chars) := by
  induction es with
  | nil => rfl
  | cons e es ih =>
    cases es with
    | nil => rfl
    | cons d es => rw [listChars_cons_cons, ih]; rfl

/-- A collection is read back when its elements are and it is no tuple of one element. -/
theorem rereadAs_collection {kind : CollectionKind} {ps : List (Expr × Expr)}
    (h : ∀ p ∈ ps, RereadAs p.1 p.2) (hground : ∀ p ∈ ps, p.2.ground)
    (hlength : kind = .tuple → ps.length ≠ 1) :
    RereadAs (.collection kind (ps.map Prod.fst)) (.collection kind (ps.map Prod.snd)) where
  printed := by
    let qs := ps.map fun p => (p.2.chars, p.1)
    have hqs : ∀ q ∈ qs, Printed q.1 q.2 := List.forall_mem_map.2 fun p hp => (h p hp).printed
    have hfst : qs.map Prod.fst = (ps.map Prod.snd).map chars := by simp [qs]
    have hsnd : qs.map Prod.snd = ps.map Prod.fst := by simp [qs]
    cases kind with
    | vector =>
      rw [chars, listChars_eq_joined, ← hfst, ← hsnd]
      exact .vector qs hqs
    | tuple =>
      rw [chars, listChars_eq_joined, ← hfst, ← hsnd]
      exact .tuple qs (by simpa [qs] using hlength rfl) hqs
  foldsTo := foldsTo_collection (fun p hp => (h p hp).foldsTo) hground

mutual

/-- Every value is read back. -/
theorem exists_rereadAs : ∀ {u : Expr}, u.IsValue → u.NumbersReadBack → ∃ e, RereadAs e u
  | .number x, h, hread =>
    exists_rereadAs_number (h.numbers x List.mem_cons_self) (hread x List.mem_cons_self)
  | .constant kind, h, _ => by
    have hk : kind = .undefined := by simpa [ground] using h.ground
    exact ⟨_, .word (.constant kind), foldsTo_self (e := .constant kind) h.ground⟩
  | .collection kind us, h, hread => by
    obtain ⟨ps, rfl, hps⟩ := exists_allRereadAs h.elements fun u hu x hx =>
      hread x (mem_allNumbers.2 ⟨u, hu, hx⟩)
    refine ⟨_, rereadAs_collection hps (fun p hp => ?_) fun hkind => ?_⟩
    · exact (h.elements p.2 (List.mem_map_of_mem hp)).ground
    · have := (noSingletons_collection.1 h.noSingletons).1 hkind
      rwa [List.length_map] at this
  | .variable _, h, _ | .parens _, h, _ | .unary .., h, _ | .binary .., h, _ | .assign .., h, _
  | .call .., h, _ => by cases h.ground

theorem exists_allRereadAs : ∀ {us : List Expr}, (∀ u ∈ us, u.IsValue) →
    (∀ u ∈ us, u.NumbersReadBack) →
    ∃ ps : List (Expr × Expr), ps.map Prod.snd = us ∧ ∀ p ∈ ps, RereadAs p.1 p.2
  | [], _, _ => ⟨[], rfl, by simp⟩
  | u :: us, h, hread => by
    rw [List.forall_mem_cons] at h hread
    obtain ⟨e, he⟩ := exists_rereadAs h.1 hread.1
    obtain ⟨ps, rfl, hps⟩ := exists_allRereadAs h.2 hread.2
    exact ⟨(e, u) :: ps, rfl, List.forall_mem_cons.2 ⟨he, hps⟩⟩

end

end Expr

/-! ## What reading and evaluating gives -/

theorem Readable.noSingletons {e : Expr} (h : Readable e) : e.NoSingletons := by
  induction h with
  | number | constant | named => simp [NoSingletons, subtrees]
  | parens _ ih => simpa [NoSingletons, subtrees] using ih
  | unary _ _ ih => exact kept_noSingletons.unary ih
  | binary _ _ _ ihl ihr => exact kept_noSingletons.binary ihl ihr
  | assign _ _ _ ih => simpa [NoSingletons, subtrees] using ih
  | call _ _ ih => exact noSingletons_call.2 ih
  | vector _ ih => exact noSingletons_collection.2 ⟨fun hkind => (by cases hkind), ih⟩
  | tuple hlength _ ih => exact noSingletons_collection.2 ⟨fun _ => hlength, ih⟩

/-- Reads and evaluates texts one after the other with one reader and one context: the values of those that
have one. -/
def Reader.values : Reader → Context → List (List Char) → List Expr
  | _, _, [] => []
  | r, c, text :: texts =>
    match r.read text with
    | (.error _, r) => r.values c texts
    | (.ok e, r) =>
      match e.evaluate c with
      | (.error _, c) => r.values c texts
      | (.ok u, c) => u :: r.values c texts

theorem Reader.noSingletons_values (depth : Nat) {cache : Cache} (hcache : cache.All Readable) {c : Context}
    (hc : c.NoSingletons) (texts : List (List Char)) :
    ∀ u ∈ ({ Reader.ofDepth depth with cache } : Reader).values c texts, u.NoSingletons := by
  induction texts generalizing cache c with
  | nil => exact fun u hu => by cases hu
  | cons text texts ih =>
    obtain ⟨hcache', hreadable⟩ := readable_readWithin depth depth text cache hcache
    rw [Reader.values, Reader.read_eq]
    split
    · next e r hread =>
      obtain ⟨-, rfl⟩ := Prod.mk.inj hread
      exact ih hcache' hc
    · next e r hread =>
      obtain ⟨he, rfl⟩ := Prod.mk.inj hread
      obtain ⟨hc', hvalue⟩ := (hreadable e he).noSingletons.evaluate hc
      split
      · next error c' heval =>
        rw [heval] at hc'
        exact ih hcache' hc'
      · next u c' heval =>
        rw [heval] at hc' hvalue
        exact List.forall_mem_cons.2 ⟨hvalue u rfl, ih hcache' hc'⟩

theorem noSingletons_withBuiltins (limit : Nat) :
    (Context.withBuiltins.withLimit limit).NoSingletons where
  functions := ground_withBuiltins.functions
  values name v hv := by
    have hentries : Context.withBuiltins.values.entries = [] := rfl
    change Table.lookup name Context.withBuiltins.values.entries = some v at hv
    rw [hentries] at hv
    cases hv

/-- **Values are read back.** Take a tree of numbers other than NaN, the undefined constant and
collections, without tuples of one element, and let its finite numbers be read from their texts. A new
reader that may nest deeply enough reads the text of the tree, and in a context without bindings what is
read evaluates to exactly this tree, if enough rewrites are allowed. And no text, read and evaluated after
any others, has a value with a tuple of one element. -/
theorem read_evaluate_chars :
    (∀ u : Expr, u.IsValue → u.NumbersReadBack → ∃ (e : Expr) (n : Nat),
      (∀ depth, u.chars.length < depth → ((Reader.ofDepth depth).read u.chars).1 = .ok e) ∧
      ∀ limit, n ≤ limit →
        e.evaluate (Context.empty.withLimit limit) = (.ok u, Context.empty.withLimit limit)) ∧
    ∀ depth limit texts,
      ∀ u ∈ (Reader.ofDepth depth).values (Context.withBuiltins.withLimit limit) texts,
        u.NoSingletons := by
  refine ⟨fun u hu hread => ?_, fun depth limit texts => ?_⟩
  · obtain ⟨e, hprinted, n, hrun⟩ := exists_rereadAs hu hread
    refine ⟨e, n, fun depth hdepth => Reader.read_printed hprinted hdepth, fun limit hlimit => ?_⟩
    refine evaluate_of_evaluatesIn (hrun _ fun name f hf => ?_) hlimit
    cases hf
  · exact Reader.noSingletons_values depth Cache.all_empty (noSingletons_withBuiltins limit) texts

/-- `[-0.5, (∞, -∞), (), undefined]` is read back. -/
theorem read_evaluate_chars_nested :
    let u : Expr := .collection .vector [.number (-0.5), .collection .tuple
      [.number Number.infinity, .number (-Number.infinity)], .collection .tuple [], .undefined]
    (∃ (e : Expr) (n : Nat),
      (∀ depth, u.chars.length < depth → ((Reader.ofDepth depth).read u.chars).1 = .ok e) ∧
      ∀ limit, n ≤ limit →
        e.evaluate (Context.empty.withLimit limit) = (.ok u, Context.empty.withLimit limit)) ∧
    ∀ v ∈ (Reader.ofDepth 256).values (Context.withBuiltins.withLimit 10000)
        ["x = (1, 2)".toList, "(max(x))".toList], v.NoSingletons := by
  intro u
  have hnumbers : u.numbers = [-0.5, Number.infinity, -Number.infinity] := rfl
  have hvalue : u.IsValue := by
    refine ⟨rfl, ?_, ?_⟩
    · rw [hnumbers]
      decide +kernel
    · simp [u, NoSingletons, subtrees, allSubtrees]
  have hread : u.NumbersReadBack := by
    intro x hx hfinite
    rw [hnumbers] at hx
    simp only [List.mem_cons, List.not_mem_nil, or_false] at hx
    rcases hx with rfl | rfl | rfl
    · rfl
    · exact absurd hfinite (by decide +kernel)
    · exact absurd hfinite (by decide +kernel)
  exact ⟨read_evaluate_chars.1 u hvalue hread, read_evaluate_chars.2 256 10000 _⟩

end Formula
