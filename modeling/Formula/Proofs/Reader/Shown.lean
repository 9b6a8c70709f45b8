import Formula.Proofs.Expr.Wrapped
import Formula.Proofs.Number.Text
import Formula.Proofs.Reader.GroupPlan
import Formula.Proofs.Reader.Readable

/-!
# The text of a tree is read again

A text is shown as a tree (`Shown`) when it is a chain that binds tightly enough, and is read as the tree
wherever blanks are put around it. Every way of putting texts together that the printer knows keeps this:
operators beside operands that bind tightly enough, parentheses, and lists with commas. So the text of
every tree that is read is read again, as the same tree but for parentheses
(`Grammar.readUnlimited_chars`).
-/

set_option autoImplicit false

namespace Formula

open Lexeme Formula.Expr

/-- A chain binds as tightly as `b` when its separators do. What binds more tightly than all separators
is a leaf, then one without an operator in front, then one without any. -/
structure BindsAt (b : Nat) (l : GroupedLeaf) (links : GroupedLinks) : Prop where
  valid : links.Valid
  level : ∀ p ∈ links, b ≤ level p.1
  front : beforeBinding < b → l.front = []
  back : afterBinding < b → l.back = []

/-- A text is a chain that binds as tightly as `b`, and is read as a tree. -/
structure Shown (text : List Char) (b : Nat) (e : Expr) : Prop where
  chain : ∃ l links, BindsAt b l links ∧ text = groupedText l links
  read : ∀ {z y : List Char}, Blank z → Blank y →
    Grammar.default.readUnlimited (z ++ text ++ y) = .ok e

theorem BindsAt.links_nil {b : Nat} {l : GroupedLeaf} {links : GroupedLinks} (h : BindsAt b l links)
    (hb : beforeBinding ≤ b) : links = [] := by
  refine List.eq_nil_iff_forall_not_mem.2 fun p hp => ?_
  have hle := Nat.le_trans hb (h.level p hp)
  rcases level_cases (h.valid p hp) with ⟨-, hlevel⟩ | ⟨-, -, hlevel⟩
  · rw [hlevel] at hle
    exact absurd hle (by decide)
  · exact absurd (Nat.le_trans hle hlevel) (by decide)

namespace Shown

variable {text : List Char} {b : Nat} {e : Expr}

theorem mono {b' : Nat} (h : Shown text b e) (hle : b' ≤ b) : Shown text b' e where
  chain := by
    obtain ⟨l, links, hbinds, htext⟩ := h.chain
    exact ⟨l, links, ⟨hbinds.valid, fun p hp => Nat.le_trans hle (hbinds.level p hp),
      fun hlt => hbinds.front (Nat.lt_of_lt_of_le hlt hle),
      fun hlt => hbinds.back (Nat.lt_of_lt_of_le hlt hle)⟩, htext⟩
  read := h.read

/-- A text that binds as tightly as an operator in front of its operand is a leaf. -/
theorem exists_leaf (h : Shown text b e) (hb : beforeBinding ≤ b) :
    ∃ l, BindsAt b l [] ∧ text = groupedText l [] := by
  obtain ⟨l, links, hbinds, htext⟩ := h.chain
  obtain rfl := hbinds.links_nil hb
  exact ⟨l, hbinds, htext⟩

end Shown

theorem bindsAt_leaf {b : Nat} {l : GroupedLeaf} (hfront : beforeBinding < b → l.front = [])
    (hback : afterBinding < b → l.back = []) : BindsAt b l [] :=
  ⟨fun _ hp => (by cases hp), fun _ hp => (by cases hp), hfront, hback⟩

/-! ## Words -/

theorem shown_word {w : List Char} {e : Expr} (hw : IsWord w)
    (h : ∀ {z y : List Char}, Blank z → Blank y → Takes (z ++ w ++ y) (.leaf e)) :
    Shown w atomBinding e where
  chain := ⟨.ofWord hw, [], bindsAt_leaf (fun _ => rfl) (fun _ => rfl), (groupedText_ofWord hw).symm⟩
  read hz hy := (h hz hy).readUnlimited

theorem shown_constant (kind : Constant) : Shown kind.symbol.toList atomBinding (.constant kind) := by
  have hw := Constant.mem_lang_of_mem kind.symbol_mem
  exact shown_word (.inr (.inl hw)) fun hz hy =>
    takes_constant (Constant.ofSymbol?_of_mem kind.symbol_mem) (plan_constant hz hy hw)

theorem shown_variable {w : List Char} (hw : w ∈ name.lang) (hnot : w ∉ constant.lang) :
    Shown w atomBinding (.variable (String.ofList w)) :=
  shown_word (.inl hw) fun hz hy => takes_variable (plan_variable hz hy hw hnot)

theorem shown_number {w : List Char} {x : Float} (hw : w ∈ number.lang)
    (hx : Number.read? w = some x) : Shown w atomBinding (.ofFloat x) :=
  shown_word (.inr (.inr hw)) fun hz hy => takes_number hx (plan_number hz hy hw)

/-! ## Operators -/

namespace Shown

variable {text left right : List Char} {e l r : Expr}

/-- Behind an operator, what binds tightly enough is a leaf still. -/
theorem exists_leaf_before {op : UnaryOperator} (h : Shown text afterBinding e)
    (hop : op.standsOn .before = true) : ∃ leaf : GroupedLeaf, leaf.front = op.symbol.toList ∧
      op.symbol.toList ++ text = groupedText leaf [] := by
  obtain ⟨leaf, hbinds, rfl⟩ := h.exists_leaf (by decide)
  have hfront : leaf.front = [] := hbinds.front (by decide)
  refine ⟨{ leaf with front := op.symbol.toList, front_mem := op.symbol_mem_fronts hop }, rfl, ?_⟩
  simp [groupedText_nil, hfront]

/-- An operator in front of what binds tightly enough is taken off. -/
theorem takes_before {op : UnaryOperator} (h : Shown text afterBinding e)
    (hop : op.standsOn .before = true) {z y : List Char} (hz : Blank z) (hy : Blank y) :
    Takes (z ++ (op.symbol.toList ++ text) ++ y) (.unary .before op ([] ++ text ++ y)) := by
  obtain ⟨leaf, hfront, htext⟩ := h.exists_leaf_before hop
  have hplan := plan_before hz hy (by rw [hfront]; exact op.symbol_ne_nil)
  rw [← htext, hfront] at hplan
  exact Formula.takes_before (by simp) (op.ofSymbol?_symbol hop) hplan

theorem before {op : UnaryOperator} (h : Shown text afterBinding e) (hop : op.standsOn .before = true) :
    Shown (op.symbol.toList ++ text) beforeBinding (.unary .before op e) := by
  obtain ⟨leaf, -, htext⟩ := h.exists_leaf_before hop
  refine ⟨⟨leaf, [], bindsAt_leaf (fun hlt => absurd hlt (by decide)) (fun hlt => absurd hlt (by decide)),
    htext⟩, fun hz hy => ?_⟩
  rw [(h.takes_before hop hz hy).readUnlimited]
  exact Step.build_unary (h.read Blank.nil hy)

theorem after {op : UnaryOperator} (h : Shown text atomBinding e) (hop : op.standsOn .after = true) :
    Shown (text ++ op.symbol.toList) afterBinding (.unary .after op e) := by
  obtain ⟨leaf, hbinds, rfl⟩ := h.exists_leaf (by decide)
  have hfront : leaf.front = [] := hbinds.front (by decide)
  have hback : leaf.back = [] := hbinds.back (by decide)
  let leaf' : GroupedLeaf := { leaf with back := op.symbol.toList, back_mem := op.symbol_mem_backs hop }
  have htext : groupedText leaf [] ++ op.symbol.toList = groupedText leaf' [] := by
    simp [groupedText_nil, hback, leaf']
  refine ⟨⟨leaf', [], bindsAt_leaf (fun _ => hfront) (fun hlt => absurd hlt (by decide)), htext⟩,
    fun {z y} hz hy => ?_⟩
  have hplan := plan_after (l := leaf') hz hy hfront op.symbol_ne_nil
  have hcore : groupedText leaf [] = Segment.texts leaf'.core := by
    simp [groupedText_nil, hfront, hback, leaf']
  rw [← htext, ← hcore] at hplan
  have hsplit : z ++ (groupedText leaf [] ++ op.symbol.toList) ++ y =
      z ++ groupedText leaf [] ++ op.symbol.toList ++ y := by simp
  rw [(takes_after hsplit (op.ofSymbol?_symbol hop) hplan).readUnlimited]
  refine Step.build_unary ?_
  rw [← List.append_nil (z ++ groupedText leaf [])]
  exact h.read hz Blank.nil

theorem binary {op : BinaryOperator} (hl : Shown left op.precedence l)
    (hr : Shown right (op.precedence + 1) r) :
    Shown (left ++ ' ' :: (op.symbol.toList ++ ' ' :: right)) op.precedence (.binary l op r) := by
  obtain ⟨leaf, links, hbinds, rfl⟩ := hl.chain
  obtain ⟨leaf', links', hbinds', rfl⟩ := hr.chain
  have hlevel : level op.symbol.toList = op.precedence := BinaryOperator.level_of_mem op.symbol_mem
  have htext := (groupedText_append leaf links op.symbol.toList leaf' links').symm
  have hvalid : (links ++ (op.symbol.toList, leaf') :: links').Valid := by
    intro p hp
    rw [List.mem_append, List.mem_cons] at hp
    rcases hp with hp | rfl | hp
    · exact hbinds.valid p hp
    · exact BinaryOperator.mem_separators op.symbol_mem
    · exact hbinds'.valid p hp
  have hle : ∀ p ∈ links ++ (op.symbol.toList, leaf') :: links', op.precedence ≤ level p.1 := by
    intro p hp
    rw [List.mem_append, List.mem_cons] at hp
    rcases hp with hp | rfl | hp
    · exact hbinds.level p hp
    · exact Nat.le_of_eq hlevel.symm
    · exact Nat.le_of_succ_le (hbinds'.level p hp)
  have hloose : ∀ {n : Nat}, 8 < n → ¬ n < op.precedence := fun hn hlt =>
    absurd (Nat.lt_of_lt_of_le (Nat.lt_trans hn hlt) op.precedence_le) (Nat.lt_irrefl 8)
  refine ⟨⟨leaf, _, ⟨hvalid, hle, fun hlt => absurd hlt (hloose (by decide)),
    fun hlt => absurd hlt (hloose (by decide))⟩, htext⟩, fun {z y} hz hy => ?_⟩
  have hplan := plan_binary (l := leaf) hz hy rfl hvalid (by rw [hlevel]; exact op.precedence_pos)
    (fun p hp => by rw [hlevel]; exact hbinds.level p hp)
    (fun p hp => by rw [hlevel]; exact hbinds'.level p hp)
  rw [← htext] at hplan
  have hsplit : z ++ (groupedText leaf links ++ ' ' ::
        (op.symbol.toList ++ ' ' :: groupedText leaf' links')) ++ y =
      z ++ groupedText leaf links ++ [' '] ++ op.symbol.toList ++
        ([' '] ++ groupedText leaf' links' ++ y) := by simp
  rw [(takes_binary hsplit (BinaryOperator.ofSymbol?_of_mem op.symbol_mem) hplan).readUnlimited]
  exact Step.build_binary (hl.read hz blank_space) (hr.read blank_space hy)

theorem assign {w : List Char} (hw : w ∈ name.lang) (hnot : w ∉ constant.lang) {b : Nat}
    (h : Shown text b e) : Shown (w ++ ' ' :: '=' :: ' ' :: text) 0 (.assign (String.ofList w) e) := by
  obtain ⟨leaf, links, hbinds, rfl⟩ := h.chain
  have hword : IsWord w := .inl hw
  have htext : w ++ ' ' :: '=' :: ' ' :: groupedText leaf links =
      groupedText (.ofWord hword) ([] ++ (['='], leaf) :: links) := by
    rw [groupedText_append, groupedText_ofWord]
    rfl
  have hvalid : GroupedLinks.Valid ((['='], leaf) :: links) := by
    intro p hp
    rcases List.mem_cons.1 hp with rfl | hp
    · exact (by decide : ['='] ∈ separators)
    · exact hbinds.valid p hp
  refine ⟨⟨.ofWord hword, _, ⟨hvalid, fun _ _ => Nat.zero_le _, fun hlt => absurd hlt (by decide),
    fun hlt => absurd hlt (by decide)⟩, htext⟩, fun {z y} hz hy => ?_⟩
  have hlinks : (['='], leaf) :: links = [] ++ (['='], leaf) :: links := rfl
  have hplan := plan_assignment (l := .ofWord hword) hz hy hlinks hvalid (fun p hp => by cases hp)
  rw [List.nil_append] at htext
  rw [← htext, groupedText_ofWord] at hplan
  have hsplit : z ++ (w ++ ' ' :: '=' :: ' ' :: groupedText leaf links) ++ y =
      z ++ w ++ [' '] ++ ['='] ++ ([' '] ++ groupedText leaf links ++ y) := by simp
  rw [(takes_assign hsplit hplan).readUnlimited]
  exact Step.build_assign ((shown_variable hw hnot).read hz blank_space) (h.read blank_space hy)

end Shown

/-! ## Lists -/

/-- Texts that are shown as trees, with commas between them. -/
inductive ShownAll : List Char → List Expr → Prop
  | nil : ShownAll [] []
  | one {text : List Char} {e : Expr} : Shown text 0 e → ShownAll text [e]
  | cons {text rest : List Char} {e d : Expr} {es : List Expr} : Shown text 0 e →
      ShownAll rest (d :: es) → ShownAll (text ++ ',' :: ' ' :: rest) (e :: d :: es)

/-- Segments of a list: what stands between its commas is read, and it is not blank. -/
structure ListSegs (text : List Char) (es : List Expr) (segs : List Segment) : Prop where
  valid : Segment.AllValid segs
  texts : Segment.texts segs = text
  read : readAll Grammar.default.readUnlimited ((commaParts segs).map Segment.texts) = .ok es
  notBlank (n : Nat) : Text.isAllBlank (Segment.covered n segs) = false
  comma (n : Nat) : ',' ∈ Segment.covered n segs ↔ es.length ≠ 1

section

variable {text z y s : List Char} {es : List Expr}

/-- A text that is shown as a tree has no commas of its own. -/
theorem Shown.listSegs {b : Nat} {e : Expr} (h : Shown text b e) (hz : Blank z) :
    ∃ segs, ListSegs (z ++ text) [e] segs := by
  obtain ⟨l, links, hbinds, rfl⟩ := h.chain
  have hcovered : ∀ n, Segment.covered n (z.map .char ++ chainSegs l links) =
      z ++ chainText (l.hidden n) (GroupedLinks.hidden links (n + Segment.count l.core)) := by
    intro n
    rw [Segment.covered_append, covered_map_char fun c hc => isEscaped_of_isBlank (hz c hc),
      Segment.count_map_char, Nat.add_zero, covered_chainSegs hbinds.valid]
  have hcomma : ∀ n, ',' ∉ Segment.covered n (z.map .char ++ chainSegs l links) := by
    intro n hmem
    rw [hcovered, List.mem_append] at hmem
    rcases hmem with hmem | hmem
    · exact absurd (hz _ hmem) (by decide)
    · exact absurd (isChainChar_of_chain (hbinds.valid.hidden _) _ hmem) (by decide)
  have htexts : Segment.texts (z.map .char ++ chainSegs l links) = z ++ groupedText l links := by
    rw [Segment.texts_append, Segment.texts_map_char, groupedText]
  refine ⟨_, allValid_append (allValid_map_char fun c hc => isBracket_of_isBlank (hz c hc))
    (allValid_chainSegs hbinds.valid l), htexts, ?_, fun n => ?_, fun n => ?_⟩
  · have hread := h.read hz Blank.nil
    rw [List.append_nil] at hread
    rw [commaParts_of_not_mem (not_mem_of_comma_not_mem (hcomma 0)), List.map_singleton, htexts, readAll, hread]
    rfl
  · obtain ⟨c, u, hc⟩ := List.exists_cons_of_ne_nil (l.hidden n).text_ne_nil
    rw [← Bool.not_eq_true]
    intro hall
    have hblank := (l.hidden n).not_isBlank c (by rw [hc]; exact List.mem_cons_self)
    rw [hcovered, chainText, hc] at hall
    rw [List.all_eq_true.1 hall c (by simp)] at hblank
    cases hblank
  · exact ⟨fun hmem => absurd hmem (hcomma n), fun hne => absurd rfl hne⟩

/-- A list that is not empty has segments. -/
theorem ShownAll.listSegs (h : ShownAll text es) (hne : es ≠ []) (hz : Blank z) :
    ∃ segs, ListSegs (z ++ text) es segs := by
  induction h generalizing z with
  | nil => exact absurd rfl hne
  | one hshown => exact hshown.listSegs hz
  | @cons text rest e d es hshown _ ih =>
    obtain ⟨segs, hsegs⟩ := hshown.listSegs hz
    obtain ⟨segs', hsegs'⟩ := ih (List.cons_ne_nil d es) blank_space
    have hcovered : ∀ n, Segment.covered n (segs ++ .char ',' :: segs') =
        Segment.covered n segs ++ ',' :: Segment.covered (n + Segment.count segs) segs' := by
      intro n
      rw [Segment.covered_append]
      rfl
    have hnot : Segment.char ',' ∉ segs :=
      not_mem_of_comma_not_mem (n := 0) fun hmem => (hsegs.comma 0).1 hmem rfl
    refine ⟨segs ++ .char ',' :: segs', ?_, ?_, ?_, fun n => ?_, fun n => ?_⟩
    · exact allValid_append hsegs.valid
        (allValid_append (allValid_map_char (w := [',']) (by simp [isBracket])) hsegs'.valid)
    · rw [Segment.texts_append, Segment.texts_cons, hsegs.texts, hsegs'.texts]
      simp [Segment.text]
    · have hread := hsegs.read
      rw [commaParts_of_not_mem hnot, List.map_singleton, readAll] at hread
      obtain ⟨e', he', hread⟩ := exists_of_bind_ok hread
      obtain ⟨es', hes', hread⟩ := exists_of_bind_ok hread
      cases hes'
      cases hread
      rw [commaParts_append hnot, List.map_cons, readAll, he', hsegs'.read]
      rfl
    · have hblank := hsegs.notBlank n
      rw [Text.isAllBlank] at hblank ⊢
      rw [hcovered, List.all_append, hblank, Bool.false_and]
    · rw [hcovered]
      exact ⟨fun _ => by simp, fun _ => by simp⟩

theorem ListSegs.hide {segs : List Segment} (h : ListSegs text es segs) :
    hide? .brackets text = some (hiddenOf segs) :=
  hide?_eq_some.2 ⟨segs, h.valid, h.texts.symm, rfl⟩

/-- Brackets nest in a list, and it is read from its pieces. -/
theorem ShownAll.reads (h : ShownAll text es) : Nested text ∧
    readAll Grammar.default.readUnlimited (listPieces text) = .ok es := by
  rcases eq_or_ne es [] with rfl | hne
  · cases h
    exact ⟨.nil, rfl⟩
  · obtain ⟨segs, hsegs⟩ := h.listSegs hne Blank.nil
    rw [List.nil_append] at hsegs
    refine ⟨hide?_isSome_iff.1 (by rw [hsegs.hide]; rfl), ?_⟩
    rw [listPieces, hsegs.hide]
    dsimp only [hiddenOf]
    rw [if_neg (by rw [hsegs.notBlank]; decide),
      restore_splitAtCommas (Hidden.shows_all segs)]
    exact hsegs.read

/-- A list of other than one tree is blank or has a comma of its own. -/
theorem ShownAll.comma (h : ShownAll text es) (hlength : es.length ≠ 1) : ∃ hid,
    hide? .brackets text = some hid ∧ (Text.isAllBlank text = true ∨ ',' ∈ hid.text) := by
  rcases eq_or_ne es [] with rfl | hne
  · cases h
    exact ⟨_, rfl, .inl rfl⟩
  · obtain ⟨segs, hsegs⟩ := h.listSegs hne Blank.nil
    exact ⟨_, hsegs.hide, .inr ((hsegs.comma 0).2 hlength)⟩

end

/-! ## Groups -/

section

variable {text : List Char} {es : List Expr}

theorem chain_group {w s : List Char} {o c : Char} (hw : w = [] ∨ w ∈ name.lang)
    (hoc : Grouping.brackets.closer? o = some c) (hs : Nested s) :
    ∃ l links, BindsAt atomBinding l links ∧ w ++ o :: (s ++ [c]) = groupedText l links :=
  ⟨.ofCall hw hoc hs, [], bindsAt_leaf (fun _ => rfl) (fun _ => rfl), (groupedText_ofCall hw hoc hs).symm⟩

theorem ShownAll.call (h : ShownAll text es) {w : List Char} (hw : w ∈ name.lang) :
    Shown (w ++ '(' :: (text ++ [')'])) atomBinding (.call (String.ofList w) es) := by
  obtain ⟨hs, hread⟩ := h.reads
  refine ⟨chain_group (.inr hw) rfl hs, fun {z y} hz hy => ?_⟩
  have hsplit : z ++ (w ++ '(' :: (text ++ [')'])) ++ y =
      z ++ w ++ ([] ++ ('(' :: (text ++ [')'])) ++ y) := by simp
  have hplan := plan_call hz hy hw hs
  rw [hsplit, (takes_call rfl Blank.nil hs hy hplan).readUnlimited]
  exact Step.build_call hread

theorem ShownAll.takes_vector (h : ShownAll text es) {z y : List Char} (hz : Blank z) (hy : Blank y) :
    Takes (z ++ ('[' :: (text ++ [']'])) ++ y) (.collection .vector (listPieces text)) := by
  obtain ⟨hs, -⟩ := h.reads
  exact Formula.takes_vector hs (plan_vector hz hy hs)

theorem ShownAll.vector (h : ShownAll text es) :
    Shown ('[' :: (text ++ [']'])) atomBinding (.collection .vector es) := by
  obtain ⟨hs, hread⟩ := h.reads
  refine ⟨chain_group (w := []) (.inl rfl) rfl hs, fun hz hy => ?_⟩
  rw [(h.takes_vector hz hy).readUnlimited]
  exact Step.build_collection hread

theorem ShownAll.takes_tuple (h : ShownAll text es) (hlength : es.length ≠ 1) {z y : List Char}
    (hz : Blank z) (hy : Blank y) :
    Takes (z ++ ('(' :: (text ++ [')'])) ++ y) (.collection .tuple (listPieces text)) := by
  obtain ⟨hs, -⟩ := h.reads
  obtain ⟨hid, hhide, hcomma⟩ := h.comma hlength
  exact Formula.takes_tuple hs (plan_tuple hz hy hhide hcomma)

theorem ShownAll.tuple (h : ShownAll text es) (hlength : es.length ≠ 1) :
    Shown ('(' :: (text ++ [')'])) atomBinding (.collection .tuple es) := by
  obtain ⟨hs, hread⟩ := h.reads
  refine ⟨chain_group (w := []) (.inl rfl) rfl hs, fun hz hy => ?_⟩
  rw [(h.takes_tuple hlength hz hy).readUnlimited]
  exact Step.build_collection hread

theorem Shown.parens {b : Nat} {e : Expr} (h : Shown text b e) :
    Shown ('(' :: (text ++ [')'])) atomBinding (.parens e) := by
  obtain ⟨segs, hsegs⟩ := h.listSegs Blank.nil
  rw [List.nil_append] at hsegs
  have hs : Nested text := hide?_isSome_iff.1 (by rw [hsegs.hide]; rfl)
  have hblank : Text.isAllBlank text = false := by
    rw [← Bool.not_eq_true]
    intro hall
    obtain ⟨groups, hhide⟩ := hide?_blank (List.all_eq_true.1 hall)
    have hcovered := congrArg Hidden.text (Option.some.inj (hhide.symm.trans hsegs.hide))
    have hnotBlank := hsegs.notBlank 0
    rw [show Segment.covered 0 segs = text from hcovered.symm, hall] at hnotBlank
    cases hnotBlank
  have hcomma : ',' ∉ (hiddenOf segs).text := fun hmem => (hsegs.comma 0).1 hmem rfl
  refine ⟨chain_group (w := []) (.inl rfl) rfl hs, fun {z y} hz hy => ?_⟩
  rw [(takes_parens hs (plan_parentheses hz hy hsegs.hide hblank hcomma)).readUnlimited]
  refine Step.build_parens ?_
  have hread := h.read Blank.nil Blank.nil
  rwa [List.nil_append, List.append_nil] at hread

/-- A text that binds too loosely is put in parentheses. -/
theorem Shown.wrapIf {b k : Nat} {e : Expr} {needed : Bool} (h : Shown text b e) (hk : k ≤ atomBinding)
    (hneeded : needed = false → k ≤ b) : Shown (wrapIf needed text) k (parensIf needed e) := by
  cases needed with
  | false => exact h.mono (hneeded rfl)
  | true => exact h.parens.mono hk

end

/-! ## Trees -/

/-- The texts of trees that are shown, with commas between them. -/
theorem shownAll_listChars {es : List Expr} (h : ∀ e ∈ es, Shown e.chars e.binding e.wrapped) :
    ShownAll (listChars es) (allWrapped es) := by
  induction es with
  | nil => exact .nil
  | cons e es ih =>
    have he := (h e List.mem_cons_self).mono (Nat.zero_le _)
    have hes := ih fun d hd => h d (List.mem_cons_of_mem _ hd)
    cases es with
    | nil => exact .one he
    | cons d es =>
      rw [listChars_cons_cons]
      exact .cons he hes

/-- A number that is read from its own text. -/
def ReadsBack (x : Float) : Prop :=
  x.isFinite = true ∧ Number.read? (Number.text x) = some x

/-- The text of a tree that can be read is read as the tree with the parentheses that the text has, if the
tree's numbers are read from theirs. -/
theorem Readable.shown {e : Expr} (h : Readable e) (hnumbers : ∀ x ∈ e.numbers, ReadsBack x) :
    Shown e.chars e.binding e.wrapped := by
  have helements : ∀ {es : List Expr}, (∀ e ∈ es, (∀ x ∈ e.numbers, ReadsBack x) →
      Shown e.chars e.binding e.wrapped) → (∀ x ∈ allNumbers es, ReadsBack x) →
      ShownAll (listChars es) (allWrapped es) :=
    fun h hnumbers => shownAll_listChars fun e he =>
      h e he fun x hx => hnumbers x (mem_allNumbers.2 ⟨e, he, hx⟩)
  induction h with
  | @number x hnan hsign =>
    obtain ⟨hfinite, hread⟩ := hnumbers x List.mem_cons_self
    have hshown := shown_number (Number.text_mem_number hfinite hsign) hread
    rw [Expr.ofFloat, hnan] at hshown
    rw [binding, hsign, chars, wrapped]
    exact hshown
  | constant kind => exact shown_constant kind
  | named hw hnot =>
    rw [chars, String.toList_ofList]
    exact shown_variable hw hnot
  | parens _ ih =>
    rw [chars, wrapped]
    exact (ih hnumbers).parens
  | @unary side op e hop _ ih =>
    have he := ih hnumbers
    cases side with
    | before =>
      rw [chars, wrapped]
      exact (he.wrapIf (by decide) fun hneeded => Nat.lt_of_not_le (of_decide_eq_false hneeded)).before hop
    | after =>
      rw [chars, wrapped]
      exact (he.wrapIf (by decide) fun hneeded => Nat.lt_of_not_le (of_decide_eq_false hneeded)).after hop
  | @binary l r op _ _ ihl ihr =>
    have hl := ihl fun x hx => hnumbers x (List.mem_append_left _ hx)
    have hr := ihr fun x hx => hnumbers x (List.mem_append_right _ hx)
    have hlt : op.precedence < atomBinding := Nat.lt_of_le_of_lt op.precedence_le (by decide)
    rw [chars, wrapped]
    exact .binary
      (hl.wrapIf (Nat.le_of_lt hlt) fun hneeded => Nat.le_of_not_lt (of_decide_eq_false hneeded))
      (hr.wrapIf hlt fun hneeded => Nat.lt_of_not_le (of_decide_eq_false hneeded))
  | assign hw hnot _ ih =>
    rw [chars, wrapped, String.toList_ofList]
    exact (ih hnumbers).assign hw hnot
  | call hw _ ih =>
    rw [chars, wrapped, String.toList_ofList]
    exact (helements ih hnumbers).call hw
  | vector _ ih =>
    rw [chars, wrapped]
    exact (helements ih hnumbers).vector
  | tuple hlength _ ih =>
    rw [chars, wrapped]
    refine (helements ih hnumbers).tuple ?_
    rwa [length_allWrapped]

/-- The text of every tree that is read is read again, if the tree's numbers are finite and are read from
their texts. The result is the same tree but for parentheses, and has the same text. -/
theorem Grammar.readUnlimited_chars {text : List Char} {e : Expr}
    (h : Grammar.default.readUnlimited text = .ok e) (hfinite : ∀ x ∈ e.numbers, x.isFinite = true)
    (hread : ∀ x ∈ e.numbers, Number.read? (Number.text x) = some x) :
    ∃ e', Grammar.default.readUnlimited e.chars = .ok e' ∧ e'.bare = e.bare ∧ e'.chars = e.chars := by
  have hnumbers : ∀ x ∈ e.numbers, ReadsBack x := fun x hx => ⟨hfinite x hx, hread x hx⟩
  have hshown := ((readable_of_read h).shown hnumbers).read Blank.nil Blank.nil
  rw [List.nil_append, List.append_nil] at hshown
  exact ⟨e.wrapped, hshown, e.bare_wrapped, e.chars_wrapped⟩

theorem Grammar.readUnlimited_chars_factorial :
    let sum := Expr.binary (.number 2) .add (.variable "x")
    let e := Expr.unary .before .negate (.unary .after .factorial (.parens sum))
    Grammar.default.readUnlimited " -(2 + x)!".toList = .ok e ∧ (∀ x ∈ e.numbers, x.isFinite = true) ∧
      (∀ x ∈ e.numbers, Number.read? (Number.text x) = some x) ∧
      ∃ e', Grammar.default.readUnlimited "-(2 + x)!".toList = .ok e' ∧
        e'.bare = .unary .before .negate (.unary .after .factorial sum) ∧
        e'.chars = "-(2 + x)!".toList := by
  intro sum e
  have htwo : Shown ['2'] atomBinding (.number 2) :=
    shown_number (Number.digits_mem_number (by decide) (Number.digits_toDigits 2).2) rfl
  have hx : Shown ['x'] atomBinding (.variable "x") :=
    shown_variable (letter_mem_name rfl) (Constant.not_mem_lang (by decide))
  have hleft : Shown ['2'] BinaryOperator.add.precedence (.number 2) := htwo.mono (by decide)
  have hright : Shown ['x'] (BinaryOperator.add.precedence + 1) (.variable "x") := hx.mono (by decide)
  have hfactorial : UnaryOperator.factorial.standsOn .after = true := rfl
  have hnegate : UnaryOperator.negate.standsOn .before = true := rfl
  have hshown := ((hleft.binary hright).parens.after hfactorial).before hnegate
  have hchars : e.chars = "-(2 + x)!".toList := by rfl
  have htext : " -(2 + x)!".toList = [' '] ++ (UnaryOperator.negate.symbol.toList ++
      ('(' :: (['2'] ++ ' ' :: (BinaryOperator.add.symbol.toList ++ ' ' :: ['x']) ++ [')']) ++
        UnaryOperator.factorial.symbol.toList)) ++ [] := by decide
  have hread : Grammar.default.readUnlimited " -(2 + x)!".toList = .ok e := by
    rw [htext]
    exact hshown.read blank_space Blank.nil
  have hfinite : ∀ x ∈ e.numbers, x.isFinite = true := by
    intro y hy
    rw [List.mem_singleton.1 hy]
    rfl
  have hnumbers : ∀ x ∈ e.numbers, Number.read? (Number.text x) = some x := by
    intro y hy
    rw [List.mem_singleton.1 hy]
    rfl
  have h := readUnlimited_chars hread hfinite hnumbers
  rw [hchars] at h
  exact ⟨hread, hfinite, hnumbers, h⟩

end Formula
