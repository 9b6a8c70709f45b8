import Formula.Proofs.Evaluation.ReadBack
import Formula.Proofs.Text.Commas

/-!
# Lists that are read

What reading takes a list apart into are its parts (`listParts_listPieces`): they are found where groups are
hidden, restored one by one, and give the list again. So the elements of every vector, tuple and call that
is read are spelled by the parts of what its brackets enclose, as deep as it stands in a tree
(`SpellsLists`). Texts of one key differ in blanks only, which no list depends on, so remembered results do
not change this.
-/

set_option autoImplicit false

namespace Formula

open Lexeme

/-! ## Pieces of lists -/

theorem listParts_listPieces {list : List Char} (h : Nested list) : ListParts list (listPieces list) := by
  obtain ⟨segs, hv, rfl⟩ := (nested_iff.1 h).exists_segments
  have hv := allValid_iff.2 hv
  rw [listPieces_texts hv]
  split
  · next hblank => exact listParts_blank hblank
  · next hblank => exact listParts_commaParts hv (Bool.not_eq_true _ ▸ hblank)

/-! ## Trees and their texts -/

/-- A text, from which blanks are left out, spells the lists of a tree. What stands in the brackets of a
vector, a tuple or a call has as many parts as there are elements, and each part spells the lists of its
element. Nothing is said of how the rest of a tree is spelled, but that its operands come from stretches of
the text. -/
inductive SpellsLists : List Char → Expr → Prop
  | number (t : List Char) (x : Float) : SpellsLists t (.number x)
  | constant (t : List Char) (kind : Constant) : SpellsLists t (.constant kind)
  | named (t : List Char) (name : String) : SpellsLists t (.variable name)
  | parens {t : List Char} {e : Expr} : SpellsLists t e → SpellsLists ('(' :: (t ++ [')'])) (.parens e)
  | before {t : List Char} {e : Expr} (w : List Char) (op : UnaryOperator) : SpellsLists t e →
      SpellsLists (w ++ t) (.unary .before op e)
  | after {t : List Char} {e : Expr} (w : List Char) (op : UnaryOperator) : SpellsLists t e →
      SpellsLists (t ++ w) (.unary .after op e)
  | binary {t u : List Char} {l r : Expr} (w : List Char) (op : BinaryOperator) : SpellsLists t l →
      SpellsLists u r → SpellsLists (t ++ w ++ u) (.binary l op r)
  | assign {u : List Char} {e : Expr} (w : List Char) (name : String) : SpellsLists u e →
      SpellsLists (w ++ u) (.assign name e)
  | call {list : List Char} {parts : List (List Char)} {es : List Expr} (name : String) :
      Nested list → ListParts list parts → List.Forall₂ SpellsLists parts es →
      SpellsLists (name.toList ++ '(' :: (list ++ [')'])) (.call name es)
  | tuple {list : List Char} {parts : List (List Char)} {es : List Expr} :
      Nested list → ListParts list parts → List.Forall₂ SpellsLists parts es →
      SpellsLists ('(' :: (list ++ [')'])) (.collection .tuple es)
  | vector {list : List Char} {parts : List (List Char)} {es : List Expr} :
      Nested list → ListParts list parts → List.Forall₂ SpellsLists parts es →
      SpellsLists ('[' :: (list ++ [']'])) (.collection .vector es)

theorem spellsLists_ofFloat (t : List Char) (x : Float) : SpellsLists t (.ofFloat x) := by
  rw [Expr.ofFloat]
  split
  · exact .constant t .undefined
  · exact .number t x

theorem solid_name {w : List Char} (hw : w ∈ name.lang) : Text.solid w = w := by
  refine List.filter_eq_self.2 fun c hc => ?_
  cases hblank : Text.isBlank c with
  | false => rfl
  | true =>
    have hnot := Text.forall_blank (f := fun c => !isNamePart c) (by decide) hblank
    rw [(nameShape_of_mem hw).all c hc] at hnot
    cases hnot

/-- A group with blanks around it. -/
theorem solid_group {o c : Char} {z s y : List Char} (hoc : Grouping.brackets.closer? o = some c)
    (hz : Blank z) (hy : Blank y) :
    Text.solid (z ++ (o :: (s ++ [c])) ++ y) = o :: (Text.solid s ++ [c]) := by
  obtain ⟨ho, hc⟩ := isBracket_of_closer hoc
  simp only [Text.solid_append, Text.solid_of_blank hz, Text.solid_of_blank hy,
    Text.solid_cons (isBlank_of_isBracket ho), Text.solid_cons (isBlank_of_isBracket hc), List.nil_append,
    List.append_nil]
  rfl

namespace Yielding

variable {m : Type → Type} [Monad m] [MonadExceptOf ReadError m] (Y : Yielding m)
  {read : List Char → m Expr} {text : List Char} {builder : Builder} {token : Token}

section
variable (hread : ∀ q, Y.yields (SpellsLists (Text.solid q)) (read q))
include hread

/-- The pieces of a list give its elements. -/
theorem spellsLists_readAll {list : List Char} (h : Nested list) :
    Y.yields (fun es => ∃ parts, ListParts (Text.solid list) parts ∧ List.Forall₂ SpellsLists parts es)
      (Formula.readAll read (listPieces list)) := by
  refine Y.mono (fun es hes => ?_) (Y.readAll_forall₂ fun q _ => hread q)
  exact ⟨_, (listParts_listPieces h).solid, List.forall₂_map_left_iff.2 hes⟩

theorem spellsLists_operator {front w back : List Char} (hb : builder.splits = true)
    (ht : text = front ++ w ++ back) :
    Y.yields (SpellsLists (Text.solid text)) (buildPlain read builder text ⟨w, Text.byteSize front⟩) := by
  have hsolid : Text.solid text = Text.solid front ++ Text.solid w ++ Text.solid back := by
    rw [ht, Text.solid_append, Text.solid_append]
  have hbefore := before?_occurrence ht
  have hfrom := from?_occurrence ht
  rw [hsolid]
  cases builder with
  | binary =>
    refine Y.bind (Y.orThrow _ _) fun op _ => Y.bind (Y.orThrow _ _) fun left hleft => ?_
    cases hbefore.symm.trans hleft
    refine Y.bind (hread front) fun l hl => Y.bind (Y.orThrow _ _) fun right hright => ?_
    cases hfrom.symm.trans hright
    exact Y.bind (hread back) fun r hr => Y.pure (.binary _ op hl hr)
  | assignment =>
    refine Y.bind (Y.orThrow _ _) fun left hleft => ?_
    cases hbefore.symm.trans hleft
    refine Y.bind (hread front) fun target _ => ?_
    cases target with
    | «variable» name =>
      refine Y.bind (Y.orThrow _ _) fun right hright => ?_
      cases hfrom.symm.trans hright
      exact Y.bind (hread back) fun e he => Y.pure (.assign _ name he)
    | _ => exact Y.throw _
  | before =>
    refine Y.bind (Y.orThrow _ _) fun op _ => Y.bind (Y.orThrow _ _) fun right hright => ?_
    cases hfrom.symm.trans hright
    exact Y.bind (hread back) fun e he => Y.pure (.before _ op he)
  | after =>
    refine Y.bind (Y.orThrow _ _) fun op _ => Y.bind (Y.orThrow _ _) fun left hleft => ?_
    cases hbefore.symm.trans hleft
    rw [List.append_assoc]
    exact Y.bind (hread front) fun e he => Y.pure (.after _ op he)
  | _ => cases hb

/-- The lists of what is built of a planned text are spelled by it. -/
theorem spellsLists_buildPlain [LawfulMonad m] (h : Planned text builder token) :
    Y.yields (SpellsLists (Text.solid text)) (buildPlain read builder text token) := by
  cases h with
  | operator hb ht => exact Y.spellsLists_operator hread hb ht
  | constant => exact Y.bind (Y.orThrow _ _) fun kind _ => Y.pure (.constant _ kind)
  | named => exact Y.pure (.named _ _)
  | number =>
    exact Y.bind (Y.orThrow _ _) fun x _ => Y.pure (spellsLists_ofFloat _ x)
  | @call x w z s y ht hx hw hz hs hy =>
    rw [buildPlain_call ht hz hs hy, ht, List.append_assoc, Text.solid_append,
      Text.solid_of_blank hx, Text.solid_append, solid_name hw, solid_group rfl hz hy, List.nil_append]
    refine Y.bind (Y.spellsLists_readAll hread hs) fun es ⟨parts, hparts, hes⟩ => Y.pure ?_
    have hcall := SpellsLists.call (String.ofList w) hs.solid hparts hes
    rwa [String.toList_ofList] at hcall
  | tuple ht hz hs hy =>
    rw [(buildPlain_group hs rfl).1, ht, solid_group rfl hz hy]
    refine Y.bind (Y.spellsLists_readAll hread hs) fun es ⟨parts, hparts, hes⟩ => Y.pure ?_
    exact .tuple hs.solid hparts hes
  | vector ht hz hs hy =>
    rw [(buildPlain_group hs rfl).2.1, ht, solid_group rfl hz hy]
    refine Y.bind (Y.spellsLists_readAll hread hs) fun es ⟨parts, hparts, hes⟩ => Y.pure ?_
    exact .vector hs.solid hparts hes
  | parentheses ht hz hs hy =>
    rw [(buildPlain_group hs rfl).2.2, ht, solid_group rfl hz hy]
    exact Y.bind (hread _) fun e he => Y.pure (.parens he)

end

end Yielding

/-! ## Readers -/

/-- Results are remembered for texts that spell their lists. -/
def Cache.Spelled (cache : Cache) : Prop :=
  ∀ p e, cache.get? (cacheKey p) = some e → SpellsLists (Text.solid p) e

theorem Cache.spelled_empty : Cache.Spelled {} := by
  intro p e h
  cases h

theorem Cache.Spelled.insert {cache : Cache} (h : cache.Spelled) {p : List Char} {e : Expr}
    (he : SpellsLists (Text.solid p) e) : Cache.Spelled (cache.insert (cacheKey p) e) := by
  intro q e' hq
  obtain ⟨hkey, rfl⟩ | hq := Table.get?_insert_eq_some hq
  · have hsolid : Text.solid q = Text.solid p :=
      filter_congr_of_key (fun c hc => by rw [hc]; rfl) hkey
    rwa [hsolid]
  · exact h q e' hq

/-- Whatever was read before, the lists of a tree that is read are spelled by its text. -/
theorem spellsLists_readWithin (limit n : Nat) (p : List Char) :
    (Yielding.keeping Cache.Spelled).yields (SpellsLists (Text.solid p))
      (Grammar.default.readWithin limit n p) := by
  refine yields_readWithin_of_text (P := fun p => SpellsLists (Text.solid p)) (fun _ p e h he => h p e he)
    (fun _ p e h he => h.insert he) (fun {read} hread p => ?_) limit n p
  rw [readStep_eq ReadM.throw_bind]
  cases hplan : Grammar.default.plan p with
  | error e => exact Yielding.throw _ e
  | ok found => exact Yielding.spellsLists_buildPlain _ hread (planned_of_plan hplan)

namespace Reader

/-- **Lists are read part by part.** A list whose groups can be hidden, and that is not blank then, is read
in pieces that give it again when they are joined with commas; brackets nest in them, and they have no
commas outside of brackets. In every tree that is read, after any other texts, vectors, tuples and calls
have such parts for elements, and no tuple has one element. -/
theorem read_lists (depth : Nat) (session : List (List Char)) :
    (∀ list h, hide? .brackets list = some h → Text.isAllBlank h.text = false →
      ∃ pieces, (∀ read : List Char → ReadM Expr, readList read list = readAll read pieces) ∧
        [','].intercalate pieces = list ∧ pieces.length = topCommas list + 1 ∧
        ∀ piece ∈ pieces, Nested piece ∧ topCommas piece = 0) ∧
    ∀ text e, (((ofDepth depth).afterTexts session).read text).1 = .ok e →
      SpellsLists (Text.solid text) e ∧ e.NoSingletons := by
  constructor
  · intro list h hh hblank
    have hnested : Nested list := hide?_isSome_iff.1 (by rw [hh]; rfl)
    obtain ⟨segs, hv, rfl, rfl⟩ := hide?_eq_some.1 hh
    have hblank : Text.isAllBlank (Segment.texts segs) = false := by
      rwa [← isAllBlank_covered hv 0]
    have hparts := listParts_listPieces hnested
    refine ⟨_, fun read => readList_eq hnested, hparts.joined hblank, ?_, fun piece hpiece => ?_⟩
    · rw [hparts.length, listLength, hblank]
      rfl
    · exact ⟨hparts.nested piece hpiece, hparts.noComma piece hpiece⟩
  · intro text e he
    obtain ⟨cache, ⟨hspelled, hreadable⟩, hreader⟩ : ∃ cache : Cache,
        (cache.Spelled ∧ cache.All Readable) ∧
          (ofDepth depth).afterTexts session = { ofDepth depth with cache } :=
      exists_cache_of_keeps ⟨Cache.spelled_empty, Cache.all_empty⟩
        (fun cache h text => ⟨(spellsLists_readWithin depth depth text cache h.1).1,
          (readable_readWithin depth depth text cache h.2).1⟩) session
    rw [hreader, read_eq] at he
    exact ⟨(spellsLists_readWithin depth depth text cache hspelled).2 e he,
      ((readable_readWithin depth depth text cache hreadable).2 e he).noSingletons⟩

/-- `(∞, [∞])` has two parts and is read as a tuple of two elements. -/
theorem read_lists_nested :
    (∃ pieces, (∀ read : List Char → ReadM Expr, readList read "∞, [∞]".toList = readAll read pieces) ∧
      [','].intercalate pieces = "∞, [∞]".toList ∧ pieces.length = topCommas "∞, [∞]".toList + 1 ∧
      ∀ piece ∈ pieces, Nested piece ∧ topCommas piece = 0) ∧
    SpellsLists (Text.solid "(∞, [∞])".toList)
      (.collection .tuple [.constant .infinity, .collection .vector [.constant .infinity]]) := by
  have hhide : hide? .brackets "∞, [∞]".toList = some ⟨"∞, [0]".toList, [⟨"[∞]".toList, 5⟩]⟩ := by rfl
  have hword : Printed ['∞'] (.constant .infinity) := .word (.constant .infinity)
  have hvector : Printed ['[', '∞', ']'] (.collection .vector [.constant .infinity]) :=
    Printed.vector [(['∞'], .constant .infinity)] (by simpa using hword)
  have hprinted : Printed "(∞, [∞])".toList
      (.collection .tuple [.constant .infinity, .collection .vector [.constant .infinity]]) :=
    Printed.tuple [(['∞'], .constant .infinity),
      (['[', '∞', ']'], .collection .vector [.constant .infinity])] (by decide) (by simp [hword, hvector])
  have hread : (((ofDepth 256).afterTexts []).read "(∞, [∞])".toList).1 = _ :=
    read_printed hprinted (by decide)
  exact ⟨(read_lists 256 []).1 _ _ hhide (by rfl), ((read_lists 256 []).2 _ _ hread).1⟩

end Reader

end Formula
