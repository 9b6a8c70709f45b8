import Formula.Proofs.Number.Literal
import Formula.Proofs.Number.Sign
import Formula.Proofs.Reader.ChainPlan
import Formula.Proofs.Reader.Spellings
import Formula.Proofs.Reader.Step

/-!
# Trees that are read

Not every tree can be read from a text. One that is read holds no NaN and no number with a sign, its
variables are names that are not constants, its operators stand where the grammar looks for them, and
none of its tuples has one element (`Readable`, `readable_of_read`). The step at one text is the same
whether results are remembered or not, so both ways of reading use one lemma for it (`Yielding.build`).
-/

set_option autoImplicit false

namespace Formula

open Lexeme

/-- The trees that reading can make. -/
inductive Readable : Expr → Prop
  | number {x : Float} : x.isNaN = false → Number.isNegative x = false → Readable (.number x)
  | constant (kind : Constant) : Readable (.constant kind)
  | named {w : List Char} : w ∈ name.lang → w ∉ constant.lang →
      Readable (.variable (String.ofList w))
  | parens {e : Expr} : Readable e → Readable (.parens e)
  | unary {side : Side} {op : UnaryOperator} {e : Expr} : op.standsOn side = true → Readable e →
      Readable (.unary side op e)
  | binary {l r : Expr} (op : BinaryOperator) : Readable l → Readable r → Readable (.binary l op r)
  | assign {w : List Char} {e : Expr} : w ∈ name.lang → w ∉ constant.lang → Readable e →
      Readable (.assign (String.ofList w) e)
  | call {w : List Char} {es : List Expr} : w ∈ name.lang → (∀ e ∈ es, Readable e) →
      Readable (.call (String.ofList w) es)
  | vector {es : List Expr} : (∀ e ∈ es, Readable e) → Readable (.collection .vector es)
  | tuple {es : List Expr} : es.length ≠ 1 → (∀ e ∈ es, Readable e) →
      Readable (.collection .tuple es)

theorem readable_ofFloat {w : List Char} {x : Float} (hw : w ∈ number.lang)
    (hx : Number.read? w = some x) : Readable (.ofFloat x) := by
  rw [Number.read?_of_mem_number hw] at hx
  rw [Expr.ofFloat]
  split
  · exact .constant .undefined
  · next hnan => exact .number (by simpa using hnan) (Number.isNegative_of_readMagnitude? hx)

/-! ## Elements of collections -/

theorem length_splitAtCommas {text : List Char} (h : ',' ∈ text) : 2 ≤ (splitAtCommas text).length := by
  induction text with
  | nil => cases h
  | cons c text ih =>
    rw [splitAtCommas]
    split
    · rw [List.length_cons]
      exact Nat.succ_le_succ (List.length_pos_iff.2 (splitAtCommas_ne_nil text))
    · next hc =>
      have htail := ih ((List.mem_cons.1 h).resolve_left fun h => hc h.symm)
      split
      · next heq =>
        rw [heq] at htail
        exact absurd htail (by decide)
      · next heq =>
        rw [heq] at htail
        exact htail

/-- There is nothing to hide in a blank text. -/
theorem hide?_blank {s : List Char} (hs : Blank s) : ∃ groups, hide? .brackets s = some ⟨s, groups⟩ := by
  refine ⟨Segment.groups 0 (s.map .char), hide?_eq_some.2 ⟨s.map .char, ?_, ?_, ?_⟩⟩
  · exact allValid_map_char fun c hc => isBracket_of_isBlank (hs c hc)
  · exact (Segment.texts_map_char s).symm
  · rw [covered_map_char fun c hc => isEscaped_of_isBlank (hs c hc)]

theorem listPieces_blank {s : List Char} (hs : Blank s) : listPieces s = [] := by
  obtain ⟨groups, hhide⟩ := hide?_blank hs
  rw [listPieces, hhide]
  exact if_pos (List.all_eq_true.2 hs)

/-- What is taken as a tuple has no single piece. -/
theorem length_listPieces_ne_one {s : List Char}
    (h : Text.isAllBlank s = true ∨ ∃ h, hide? .brackets s = some h ∧ ',' ∈ h.text) :
    (listPieces s).length ≠ 1 := by
  rcases h with hblank | ⟨h, hh, hcomma⟩
  · rw [listPieces_blank (List.all_eq_true.1 hblank)]
    exact Nat.zero_ne_one
  · rw [listPieces, hh]
    dsimp only
    split
    · exact Nat.zero_ne_one
    · rw [List.length_map]
      exact Nat.ne_of_gt (length_splitAtCommas hcomma)

/-! ## What computations give -/

/-- A way to say of computations that what they give, if anything, has a property. -/
structure Yielding (m : Type → Type) [Monad m] [MonadExceptOf ReadError m] where
  yields {α : Type} : (α → Prop) → m α → Prop
  mono {α : Type} {P Q : α → Prop} {x : m α} : (∀ a, P a → Q a) → yields P x → yields Q x
  pure {α : Type} {P : α → Prop} {a : α} : P a → yields P (pure a)
  throw {α : Type} {P : α → Prop} (e : ReadError) : yields P (throw e : m α)
  bind {α β : Type} {P : α → Prop} {Q : β → Prop} {x : m α} {f : α → m β} :
    yields P x → (∀ a, P a → yields Q (f a)) → yields Q (x >>= f)

namespace Yielding

variable {m : Type → Type} [Monad m] [MonadExceptOf ReadError m] (Y : Yielding m)
  {read : List Char → m Expr}

/-- A value that has to exist is the one that does. -/
theorem orThrow {α : Type} (e : ReadError) (a : Option α) :
    Y.yields (fun b => a = some b) (orThrow e a : m α) := by
  cases a with
  | none => exact Y.throw e
  | some a => exact Y.pure rfl

/-- Several texts give as many trees, each what is said of its text. -/
theorem readAll_forall₂ {P : List Char → Expr → Prop} {texts : List (List Char)}
    (h : ∀ q ∈ texts, Y.yields (P q) (read q)) :
    Y.yields (List.Forall₂ P texts) (Formula.readAll read texts) := by
  induction texts with
  | nil => exact Y.pure .nil
  | cons q texts ih =>
    refine Y.bind (h q List.mem_cons_self) fun e he => ?_
    exact Y.bind (ih fun p hp => h p (List.mem_cons_of_mem _ hp)) fun es hes => Y.pure (.cons he hes)

/-- Several texts give as many trees. -/
theorem readAll {P : Expr → Prop} {texts : List (List Char)} (h : ∀ q ∈ texts, Y.yields P (read q)) :
    Y.yields (fun es => es.length = texts.length ∧ ∀ e ∈ es, P e) (readAll read texts) := by
  refine Y.mono ?_ (Y.readAll_forall₂ (P := fun _ => P) h)
  clear h
  intro es hes
  induction hes with
  | nil => exact ⟨rfl, fun e he => by cases he⟩
  | cons he _ ih => exact ⟨congrArg Nat.succ ih.1, List.forall_mem_cons.2 ⟨he, ih.2⟩⟩

/-- A step makes a readable tree of readable trees. -/
theorem build {text : List Char} {s : Step} (hs : StepOf text s)
    (h : ∀ q ∈ s.parts, Y.yields Readable (read q)) : Y.yields Readable (s.build read text) := by
  cases hs with
  | malformed | unbalanced => exact Y.throw _
  | @constant w kind => exact Y.pure (.constant kind)
  | named hw hnot => exact Y.pure (.named hw hnot)
  | number hw hx => exact Y.pure (readable_ofFloat hw hx)
  | before _ hop _ | after _ hop _ =>
    refine Y.bind (h _ List.mem_cons_self) fun e he => Y.pure ?_
    exact .unary (UnaryOperator.standsOn_of_ofSymbol? hop) he
  | @binary front w back op =>
    refine Y.bind (h _ List.mem_cons_self) fun l hl => ?_
    refine Y.bind (h _ (List.mem_cons_of_mem _ List.mem_cons_self)) fun r hr => Y.pure ?_
    exact .binary op hl hr
  | assign =>
    refine Y.bind (h _ List.mem_cons_self) fun target htarget => ?_
    cases htarget with
    | named hw hnot =>
      refine Y.bind (h _ (List.mem_cons_of_mem _ List.mem_cons_self)) fun e he => Y.pure ?_
      exact .assign hw hnot he
    | _ => exact Y.throw _
  | parens => exact Y.bind (h _ List.mem_cons_self) fun e he => Y.pure (.parens he)
  | call _ hw => exact Y.bind (Y.readAll h) fun es hes => Y.pure (.call hw hes.2)
  | tuple _ _ hcomma =>
    refine Y.bind (Y.readAll h) fun es hes => Y.pure (.tuple ?_ hes.2)
    rw [hes.1]
    exact length_listPieces_ne_one hcomma
  | vector => exact Y.bind (Y.readAll h) fun es hes => Y.pure (.vector hes.2)

end Yielding

theorem exists_of_bind_ok {α β : Type} {x : Except ReadError α} {f : α → Except ReadError β} {b : β}
    (h : x >>= f = .ok b) : ∃ a, x = .ok a ∧ f a = .ok b := by
  cases x with
  | error e => cases h
  | ok a => exact ⟨a, rfl, h⟩

/-- What reading afresh gives. -/
def Yielding.fresh : Yielding (Except ReadError) where
  yields P x := ∀ a, x = .ok a → P a
  mono h hx a ha := h a (hx a ha)
  pure h a ha := by
    cases ha
    exact h
  throw e a ha := by cases ha
  bind hx hf b hb := by
    obtain ⟨a, ha, hb⟩ := exists_of_bind_ok hb
    exact hf a (hx a ha) b hb

/-- A tree that is read is readable. -/
theorem readable_of_read {text : List Char} {e : Expr}
    (h : Grammar.default.readUnlimited text = .ok e) : Readable e := by
  induction hlen : text.length using Nat.strongRecOn generalizing text e with
  | ind k ih =>
    obtain ⟨s, hs, hpieces, heq⟩ := exists_step text
    rw [readUnlimited_eq, heq _ throw_bind_except] at h
    refine Yielding.fresh.build hs (fun q hq d hd => ?_) e h
    have hlt := length_lt_of_mem_pieces (hpieces q hq)
    exact ih q.length (by omega) hd rfl

/-! ## Reading with remembered results -/

/-- All remembered results have a property. -/
def Cache.All (P : Expr → Prop) (cache : Cache) : Prop :=
  ∀ key e, cache.get? key = some e → P e

section
variable {P : Expr → Prop}

theorem Cache.all_empty : Cache.All P {} := by
  intro key e h
  cases h

theorem Cache.All.insert {cache : Cache} (h : cache.All P) (key : String) {e : Expr} (he : P e) :
    Cache.All P (cache.insert key e) := by
  intro other d hd
  obtain ⟨-, rfl⟩ | hd := Table.get?_insert_eq_some hd
  · exact he
  · exact h other d hd

end

/-- What reading gives while what is remembered has a property, and keeps having it. -/
def Yielding.keeping (I : Cache → Prop) : Yielding ReadM where
  yields P x := ∀ cache, I cache →
    I (x.result cache).2 ∧ ∀ a, (x.result cache).1 = .ok a → P a
  mono h hx cache hcache := (hx cache hcache).imp_right fun hgives a ha => h a (hgives a ha)
  pure h cache hcache := by
    refine ⟨hcache, fun a ha => ?_⟩
    cases ha
    exact h
  throw e cache hcache := ⟨hcache, fun a ha => by cases ha⟩
  bind {α β P Q x f} hx hf cache hcache := by
    obtain ⟨hcache', hgives⟩ := hx cache hcache
    rw [ReadM.result_bind]
    rcases hresult : x.result cache with ⟨e | a, cache'⟩
    · rw [hresult] at hcache'
      exact ⟨hcache', fun b hb => by cases hb⟩
    · rw [hresult] at hcache' hgives
      exact hf a (hgives a rfl) cache' hcache'

/-- What reading gives while all remembered results have a property, and keep having it. -/
def Yielding.cached (remembered : Expr → Prop) : Yielding ReadM :=
  .keeping (Cache.All remembered)

/-- Reading gives for every text what is said of it, if a step does when reading the pieces does, and if this
is what is remembered. -/
theorem yields_readWithin_of_text {I : Cache → Prop} {P : List Char → Expr → Prop} {g : Grammar}
    (hget : ∀ cache p e, I cache → cache.get? (cacheKey p) = some e → P p e)
    (hinsert : ∀ cache p e, I cache → P p e → I (cache.insert (cacheKey p) e))
    (hstep : ∀ {read : List Char → ReadM Expr}, (∀ q, (Yielding.keeping I).yields (P q) (read q)) →
      ∀ p, (Yielding.keeping I).yields (P p) (readStep g read p)) (limit n : Nat) (p : List Char) :
    (Yielding.keeping I).yields (P p) (g.readWithin limit n p) := by
  induction n generalizing p with
  | zero =>
    intro cache hcache
    rw [readWithin_result]
    cases he : cache.get? (cacheKey p) with
    | some e => exact ⟨hcache, fun a ha => by cases ha; exact hget _ _ _ hcache he⟩
    | none => exact ⟨hcache, fun a ha => by cases ha⟩
  | succ n ih =>
    intro cache hcache
    rw [readWithin_result]
    cases he : cache.get? (cacheKey p) with
    | some e => exact ⟨hcache, fun a ha => by cases ha; exact hget _ _ _ hcache he⟩
    | none =>
      obtain ⟨hcache', hgives⟩ := hstep ih p cache hcache
      dsimp only
      rcases hresult : (readStep g (g.readWithin limit n) p).result cache with ⟨e | e, cache'⟩
      · rw [hresult] at hcache'
        exact ⟨hcache', fun a ha => by cases ha⟩
      · rw [hresult] at hcache' hgives
        refine ⟨hinsert _ _ _ hcache' (hgives e rfl), fun a ha => ?_⟩
        cases ha
        exact hgives e rfl

/-- Reading gives trees with a property, if a step does when its pieces have it, and if all remembered results
have it. -/
theorem yields_readWithin {P : Expr → Prop} {g : Grammar}
    (hstep : ∀ {read : List Char → ReadM Expr}, (∀ q, (Yielding.cached P).yields P (read q)) →
      ∀ p, (Yielding.cached P).yields P (readStep g read p)) (limit n : Nat) (p : List Char) :
    (Yielding.cached P).yields P (g.readWithin limit n p) :=
  yields_readWithin_of_text (P := fun _ => P) (fun _ _ e hcache he => hcache _ e he)
    (fun _ _ _ hcache he => hcache.insert _ he) hstep limit n p

/-- Whatever was read before, a tree that is read is readable. -/
theorem readable_readWithin (limit n : Nat) (p : List Char) :
    (Yielding.cached Readable).yields Readable (Grammar.default.readWithin limit n p) := by
  refine yields_readWithin (fun {read} hread p => ?_) limit n p
  obtain ⟨s, hs, -, heq⟩ := exists_step p
  rw [heq ReadM ReadM.throw_bind]
  exact (Yielding.cached Readable).build hs fun q _ => hread q

end Formula
