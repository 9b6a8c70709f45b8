import Formula.Proofs.Number.Literal
import Formula.Proofs.Reader.ChainKey
import Formula.Proofs.Reader.ChainPlan
import Formula.Proofs.Reader.Grouping
import Formula.Proofs.Reader.Step

/-!
# Precedence and associativity

A chain of atoms and binary operators, maybe assigned to names, is read as its operators' precedences
say: `Chain.tree` puts it together from left to right, attaching each operator to the right edge of the
tree so far, above all that binds at least as tightly (`Expr.attach`). `Reader.read_chain` says that a
new reader makes exactly this tree of the chain's text, for every chain and every spelling of its
operators, if it may nest more deeply than the chain has operators and equals signs.

The rules for operators know nothing of trees: they split a text at the last of its loosest operators.
The two agree as splitting a chain there splits its tree at the root (`group_append`).
-/

set_option autoImplicit false

namespace Formula

open Lexeme

/-! ## Chains -/

/-- A name that is no spelling of a constant. -/
structure Name where
  text : List Char
  mem : text ∈ name.lang
  not_constant : Constant.ofSymbol? text = none

/-- What stands between operators: a name, a constant in one of its spellings, or a number in ASCII
characters. -/
inductive Atom where
  | name (x : Name)
  | constant (kind : Constant) (spelling : List Char) (spells : spelling ∈ kind.spellings)
  | number (literal : List Char) (mem : literal ∈ Lexeme.number.lang)
      (ascii : ∀ c ∈ literal, c.toNat < 128)

/-- An operator in one of its spellings, and the atom behind it. -/
structure Link where
  op : BinaryOperator
  spelling : List Char
  spells : spelling ∈ op.spellings
  operand : Atom

/-- Names that are assigned to, and atoms with binary operators between them. -/
structure Chain where
  targets : List Name
  first : Atom
  rest : List Link

/-- The text of an atom. -/
def Atom.text : Atom → List Char
  | name x => x.text
  | constant _ spelling _ => spelling
  | number literal _ _ => literal

/-- The leaf that an atom is. -/
def Atom.tree : Atom → Expr
  | name x => .variable (String.ofList x.text)
  | constant kind _ _ => .constant kind
  | number literal mem ascii => .ofFloat ((Number.read? literal).get (Number.isSome_read? mem ascii))

namespace Chain

/-- The text of a chain, with single spaces. -/
def text (c : Chain) : List Char :=
  c.targets.flatMap (fun x => x.text ++ " = ".toList) ++ c.first.text ++
    c.rest.flatMap fun link => ' ' :: (link.spelling ++ ' ' :: link.operand.text)

/-- The number of equals signs and operators. -/
def size (c : Chain) : Nat :=
  c.targets.length + c.rest.length

end Chain

/-! ## The tree of a chain -/

/-- The operators of a chain, each with the leaf behind it. -/
def Chain.operations (rest : List Link) : List (BinaryOperator × Expr) :=
  rest.map fun link => (link.op, link.operand.tree)

/-- The tree of a chain: assignments to its names, around the tree of its operators. -/
def Chain.tree (c : Chain) : Expr :=
  c.targets.foldr (fun x e => .assign (String.ofList x.text) e)
    (.group c.first.tree (operations c.rest))

/-! ## A chain splits into chains -/

theorem Atom.isWord : (a : Atom) → IsWord a.text
  | name x => .inl x.mem
  | constant _ _ spells => .inr (.inl (Constant.mem_lang_of_mem spells))
  | number _ mem _ => .inr (.inr mem)

theorem Atom.rootPrecedence_tree (a : Atom) : a.tree.rootPrecedence = 9 := by
  cases a with
  | number literal mem ascii =>
    rw [tree, Expr.ofFloat]
    split <;> rfl
  | _ => rfl

namespace Chain

/-- The first atom of a chain. -/
def firstAtom (first : Atom) : List Name → Atom
  | [] => first
  | x :: _ => .name x

/-- The operators of a chain in their spellings, each with the atom behind it. -/
def operatorLinks (rest : List Link) : List (List Char × Atom) :=
  rest.map fun link => (link.spelling, link.operand)

/-- The operators and equals signs of a chain. -/
def links (first : Atom) (rest : List Link) : List Name → List (List Char × Atom)
  | [] => operatorLinks rest
  | _ :: targets => (['='], firstAtom first targets) :: links first rest targets

/-- The leaf that an atom is. -/
def leafOf (a : Atom) : GroupedLeaf :=
  .ofWord a.isWord

/-- The links with the leaves that the atoms are. -/
def leaves (links : List (List Char × Atom)) : GroupedLinks :=
  links.map fun p => (p.1, leafOf p.2)

/-- Atoms with what stands between them. -/
def spacedText (first : Atom) (links : List (List Char × Atom)) : List Char :=
  spaced first.text (links.map fun p => (p.1, p.2.text))

theorem groupedText_leaves (first : Atom) (links : List (List Char × Atom)) :
    groupedText (leafOf first) (leaves links) = spacedText first links := by
  induction links generalizing first with
  | nil => exact groupedText_ofWord first.isWord
  | cons p links ih =>
    have hcons := groupedText_append (leafOf first) [] p.1 (leafOf p.2) (leaves links)
    rw [List.nil_append, leafOf, groupedText_ofWord, ih] at hcons
    exact hcons

theorem text_operators (first : Atom) (rest : List Link) :
    text ⟨[], first, rest⟩ = spacedText first (operatorLinks rest) := by
  induction rest generalizing first with
  | nil => simp [text, spacedText, operatorLinks, spaced]
  | cons link rest ih =>
    have htext : text ⟨[], first, link :: rest⟩ =
        first.text ++ ' ' :: (link.spelling ++ ' ' :: text ⟨[], link.operand, rest⟩) := by
      simp [text]
    rw [htext, ih]
    rfl

theorem text_eq (targets : List Name) (first : Atom) (rest : List Link) :
    text ⟨targets, first, rest⟩ = spacedText (firstAtom first targets) (links first rest targets) := by
  induction targets with
  | nil => exact text_operators first rest
  | cons x targets ih =>
    have htext : text ⟨x :: targets, first, rest⟩ =
        x.text ++ ' ' :: (['='] ++ ' ' :: text ⟨targets, first, rest⟩) := by
      simp [text]
    rw [htext, ih]
    rfl

theorem operatorLinks_separators (rest : List Link) : ∀ p ∈ operatorLinks rest, p.1 ∈ separators := by
  intro p hp
  obtain ⟨link, -, rfl⟩ := List.mem_map.1 hp
  exact BinaryOperator.mem_separators link.spells

theorem links_separators (first : Atom) (rest : List Link) (targets : List Name) :
    ∀ p ∈ links first rest targets, p.1 ∈ separators := by
  induction targets with
  | nil => exact operatorLinks_separators rest
  | cons x targets ih =>
    intro p hp
    rcases List.mem_cons.1 hp with rfl | hp
    · exact (by decide : ['='] ∈ separators)
    · exact ih p hp

theorem leaves_valid {links : List (List Char × Atom)} (h : ∀ p ∈ links, p.1 ∈ separators) :
    (leaves links).Valid := by
  intro p hp
  obtain ⟨q, hq, rfl⟩ := List.mem_map.1 hp
  exact h q hq

theorem spaced_links {links : List (List Char × Atom)} (h : ∀ p ∈ links, p.1 ∈ separators)
    (first : Atom) : Spaced first.text (links.map fun p => (p.1, p.2.text)) := by
  refine ⟨first.isWord, fun p hp => ?_⟩
  obtain ⟨q, hq, rfl⟩ := List.mem_map.1 hp
  exact ⟨h q hq, q.2.isWord⟩

/-- Among operators there is a last one of the loosest. -/
theorem exists_last_loosest {rest : List Link} (h : rest ≠ []) : ∃ before link after,
    rest = before ++ link :: after ∧ (∀ p ∈ before, link.op.precedence ≤ p.op.precedence) ∧
      ∀ p ∈ after, link.op.precedence < p.op.precedence := by
  induction rest with
  | nil => exact absurd rfl h
  | cons a rest ih =>
    rcases eq_or_ne rest [] with rfl | hne
    · exact ⟨[], a, [], rfl, fun p hp => (by cases hp), fun p hp => (by cases hp)⟩
    · obtain ⟨before, link, after, rfl, hbefore, hafter⟩ := ih hne
      by_cases hlt : a.op.precedence < link.op.precedence
      · refine ⟨[], a, before ++ link :: after, rfl, fun p hp => (by cases hp), fun p hp => ?_⟩
        rw [List.mem_append, List.mem_cons] at hp
        rcases hp with hp | rfl | hp
        · exact Nat.lt_of_lt_of_le hlt (hbefore p hp)
        · exact hlt
        · exact Nat.lt_trans hlt (hafter p hp)
      · refine ⟨a :: before, link, after, rfl, fun p hp => ?_, hafter⟩
        rcases List.mem_cons.1 hp with rfl | hp
        · exact Nat.le_of_not_lt hlt
        · exact hbefore p hp

/-- A name alone. -/
def ofName (x : Name) : Chain :=
  ⟨[], .name x, []⟩

/-- How a chain between blanks is split into smaller chains between blanks. -/
inductive Splits (z y : List Char) (c : Chain) : Step → Prop
  | atom : Splits z y c (.leaf c.tree)
  | binary {left right : Chain} {op : BinaryOperator} : c.tree = .binary left.tree op right.tree →
      left.size < c.size → right.size < c.size →
      Splits z y c (.binary (z ++ left.text ++ [' ']) op ([' '] ++ right.text ++ y))
  | assign {x : Name} {value : Chain} : c.tree = .assign (String.ofList x.text) value.tree →
      value.size < c.size →
      Splits z y c (.assign (z ++ (ofName x).text ++ [' ']) ([' '] ++ value.text ++ y))

section

variable {z y : List Char} (hz : Blank z) (hy : Blank y)
include hz hy

/-- An atom alone is a leaf. -/
theorem takes_atom (a : Atom) : Takes (z ++ a.text ++ y) (.leaf a.tree) := by
  cases a with
  | name x => exact takes_variable (plan_variable hz hy x.mem (Constant.not_mem_lang x.not_constant))
  | constant kind spelling spells =>
    exact takes_constant (Constant.ofSymbol?_of_mem spells)
      (plan_constant hz hy (Constant.mem_lang_of_mem spells))
  | number literal mem ascii => exact takes_number (Option.some_get _).symm (plan_number hz hy mem)

/-- Operators split at the last of the loosest. -/
theorem takes_binary (first : Atom) {before after : List Link} {link : Link}
    (hbefore : ∀ p ∈ before, link.op.precedence ≤ p.op.precedence)
    (hafter : ∀ p ∈ after, link.op.precedence < p.op.precedence) :
    Takes (z ++ text ⟨[], first, before ++ link :: after⟩ ++ y)
      (.binary (z ++ text ⟨[], first, before⟩ ++ [' ']) link.op
        ([' '] ++ text ⟨[], link.operand, after⟩ ++ y)) := by
  have hlinks : leaves (operatorLinks (before ++ link :: after)) =
      leaves (operatorLinks before) ++ (link.spelling, leafOf link.operand) ::
        leaves (operatorLinks after) := by
    simp [leaves, operatorLinks]
  have hlevel := BinaryOperator.level_of_mem link.spells
  have hplan := plan_binary (l := leafOf first) hz hy hlinks
    (leaves_valid (operatorLinks_separators _))
    (by rw [hlevel]; exact link.op.precedence_pos)
    (fun p hp => by
      obtain ⟨q, hq, rfl⟩ := List.mem_map.1 hp
      obtain ⟨r, hr, rfl⟩ := List.mem_map.1 hq
      rw [hlevel, BinaryOperator.level_of_mem r.spells]
      exact hbefore r hr)
    (fun p hp => by
      obtain ⟨q, hq, rfl⟩ := List.mem_map.1 hp
      obtain ⟨r, hr, rfl⟩ := List.mem_map.1 hq
      rw [hlevel, BinaryOperator.level_of_mem r.spells]
      exact hafter r hr)
  have htext := groupedText_append (leafOf first) (leaves (operatorLinks before)) link.spelling
    (leafOf link.operand) (leaves (operatorLinks after))
  rw [← hlinks, groupedText_leaves, groupedText_leaves, groupedText_leaves, ← text_operators,
    ← text_operators, ← text_operators] at htext
  rw [groupedText_leaves, groupedText_leaves, ← text_operators, ← text_operators] at hplan
  refine Formula.takes_binary ?_ (BinaryOperator.ofSymbol?_of_mem link.spells) hplan
  rw [htext]
  simp

/-- Assignments split at the first equals sign. -/
theorem takes_assign (x : Name) (targets : List Name) (first : Atom) (rest : List Link) :
    Takes (z ++ text ⟨x :: targets, first, rest⟩ ++ y)
      (.assign (z ++ (ofName x).text ++ [' ']) ([' '] ++ text ⟨targets, first, rest⟩ ++ y)) := by
  have hlinks : leaves (links first rest (x :: targets)) =
      [] ++ (['='], leafOf (firstAtom first targets)) :: leaves (links first rest targets) := rfl
  have hplan := plan_assignment (l := leafOf (.name x)) hz hy hlinks
    (leaves_valid (links_separators first rest (x :: targets))) (fun p hp => by cases hp)
  have htext := groupedText_append (leafOf (.name x)) [] ['='] (leafOf (firstAtom first targets))
    (leaves (links first rest targets))
  have hname : groupedText (leafOf (.name x)) [] = (ofName x).text := by
    rw [leafOf, groupedText_ofWord]
    simp [ofName, text]
  have hwhole : text ⟨x :: targets, first, rest⟩ =
      spacedText (.name x) (links first rest (x :: targets)) := text_eq (x :: targets) first rest
  rw [← hlinks, groupedText_leaves, groupedText_leaves, ← hwhole, ← text_eq, hname] at htext
  rw [groupedText_leaves, ← hwhole, hname] at hplan
  refine Formula.takes_assign ?_ hplan
  rw [htext]
  simp

end

theorem group_tree (first : Atom) {before after : List Link} {link : Link}
    (hbefore : ∀ p ∈ before, link.op.precedence ≤ p.op.precedence)
    (hafter : ∀ p ∈ after, link.op.precedence < p.op.precedence) :
    tree ⟨[], first, before ++ link :: after⟩ =
      .binary (tree ⟨[], first, before⟩) link.op (tree ⟨[], link.operand, after⟩) := by
  have hoperations : operations (before ++ link :: after) =
      operations before ++ (link.op, link.operand.tree) :: operations after := by
    simp [operations]
  have hfirst : link.op.precedence ≤ first.tree.rootPrecedence := by
    rw [first.rootPrecedence_tree]
    exact Nat.le_succ_of_le link.op.precedence_le
  show Expr.group first.tree (operations (before ++ link :: after)) = _
  rw [hoperations]
  refine Expr.group_append hfirst (fun p hp => ?_) fun p hp => ?_
  · obtain ⟨q, hq, rfl⟩ := List.mem_map.1 hp
    exact hbefore q hq
  · obtain ⟨q, hq, rfl⟩ := List.mem_map.1 hp
    exact hafter q hq

/-- Reading a chain between blanks splits it into smaller ones, and its tree likewise. -/
theorem exists_splits (c : Chain) {z y : List Char} (hz : Blank z) (hy : Blank y) :
    ∃ s, Splits z y c s ∧ Takes (z ++ c.text ++ y) s := by
  obtain ⟨targets, first, rest⟩ := c
  cases targets with
  | cons x targets =>
    refine ⟨_, .assign rfl ?_, takes_assign hz hy x targets first rest⟩
    simp [size]
  | nil =>
    rcases eq_or_ne rest [] with rfl | hne
    · refine ⟨_, .atom, ?_⟩
      have htext : text ⟨[], first, []⟩ = first.text := by simp [text]
      rw [htext]
      exact takes_atom hz hy first
    · obtain ⟨before, link, after, rfl, hbefore, hafter⟩ := exists_last_loosest hne
      refine ⟨_, .binary (group_tree first hbefore hafter) ?_ ?_,
        takes_binary hz hy first hbefore hafter⟩
      · simp [size]
      · simp [size]
        omega

/-- A chain is read as its tree with more levels than it has operators and equals signs. -/
theorem readFresh_text (limit : Nat) (c : Chain) {n : Nat} (h : c.size < n) {z y : List Char}
    (hz : Blank z) (hy : Blank y) :
    Grammar.default.readFresh limit n (z ++ c.text ++ y) = .ok c.tree := by
  induction n generalizing c z y with
  | zero => exact absurd h (Nat.not_lt_zero _)
  | succ n ih =>
    obtain ⟨s, hs, htakes⟩ := exists_splits c hz hy
    rw [Grammar.readFresh, htakes.readStep]
    cases hs with
    | atom => rfl
    | @binary left right op htree hleft hright =>
      rw [htree]
      exact Step.build_binary (ih left (by omega) hz blank_space) (ih right (by omega) blank_space hy)
    | @assign x value htree hvalue =>
      have hname : (ofName x).size < n :=
        Nat.lt_of_lt_of_le (Nat.zero_lt_of_lt hvalue) (Nat.le_of_lt_succ h)
      rw [htree]
      exact Step.build_assign (ih (ofName x) hname hz blank_space) (ih value (by omega) blank_space hy)

/-! ## Chains of the same key -/

/-- Chains between blanks. -/
def padded : Set (List Char) :=
  {p | ∃ (z y : List Char) (c : Chain), Blank z ∧ Blank y ∧ p = z ++ c.text ++ y}

theorem closed_padded : Closed padded := by
  rintro p ⟨z, y, c, hz, hy, rfl⟩ q hq
  obtain ⟨s, hs, htakes⟩ := exists_splits c hz hy
  have hq := htakes.pieces q hq
  cases hs with
  | atom => cases hq
  | @binary left right =>
    rcases List.mem_pair.1 hq with rfl | rfl
    · exact ⟨z, [' '], left, hz, blank_space, rfl⟩
    · exact ⟨[' '], y, right, blank_space, hy, rfl⟩
  | @assign x value =>
    rcases List.mem_pair.1 hq with rfl | rfl
    · exact ⟨z, [' '], ofName x, hz, blank_space, rfl⟩
    · exact ⟨[' '], y, value, blank_space, hy, rfl⟩

theorem readUnlimited_text (c : Chain) {z y : List Char} (hz : Blank z) (hy : Blank y) :
    Grammar.default.readUnlimited (z ++ c.text ++ y) = .ok c.tree := by
  have hlength : (z ++ c.text ++ y).length < c.size + (z ++ c.text ++ y).length + 1 :=
    Nat.lt_succ_of_le (Nat.le_add_left _ _)
  have hsize : c.size < c.size + (z ++ c.text ++ y).length + 1 :=
    Nat.lt_succ_of_le (Nat.le_add_right _ _)
  exact (readFresh_eq_readUnlimited hlength).symm.trans (readFresh_text 0 c hsize hz hy)

/-- Chains of the same key are the same but for the blanks around them. -/
theorem keysAgree_padded : KeysAgree padded := by
  rintro p ⟨z, y, ⟨targets, first, rest⟩, hz, hy, rfl⟩ q ⟨z', y', ⟨targets', first', rest'⟩, hz', hy', rfl⟩
    hkey e he
  have htext : text ⟨targets, first, rest⟩ = text ⟨targets', first', rest'⟩ := by
    rw [text_eq, text_eq] at hkey ⊢
    exact spaced_eq_of_cacheKey (spaced_links (links_separators _ _ _) _)
      (spaced_links (links_separators _ _ _) _) hz hy hz' hy' hkey
  rw [readUnlimited_text _ hz' hy'] at he
  rw [htext, readUnlimited_text _ hz hy, he]

end Chain

/-- A new reader that may nest more deeply than a chain has operators and equals signs reads the chain
as the tree that precedence and associativity to the left give it, assigned to its names from right to
left. -/
theorem Reader.read_chain (c : Chain) {depth : Nat} (h : c.size < depth) :
    ((Reader.ofDepth depth).read c.text).1 = .ok c.tree := by
  have hmem : c.text ∈ Chain.padded := ⟨[], [], c, Blank.nil, Blank.nil, by simp⟩
  have hfresh := c.readFresh_text depth h Blank.nil Blank.nil
  rw [List.nil_append, List.append_nil] at hfresh
  obtain ⟨-, hresult⟩ := readWithin_eq_readFresh Chain.closed_padded Chain.keysAgree_padded depth depth
    hmem {} (Cache.sound_empty _)
  rw [hfresh] at hresult
  rcases hresult with ⟨limit, input, hdeep⟩ | hresult
  · cases hdeep
  · exact hresult

theorem Reader.read_chain_assign : ((Reader.ofDepth 4).read "x = a - b ^ c".toList).1 =
    .ok (.assign "x" (.binary (.variable "a") .sub (.binary (.variable "b") .pow (.variable "c")))) :=
  Reader.read_chain ⟨[⟨['x'], letter_mem_name rfl, by decide⟩], .name ⟨['a'], letter_mem_name rfl, by decide⟩,
    [⟨.sub, ['-'], by decide, .name ⟨['b'], letter_mem_name rfl, by decide⟩⟩,
      ⟨.pow, ['^'], by decide, .name ⟨['c'], letter_mem_name rfl, by decide⟩⟩]⟩ (by decide)

end Formula
