import Formula.Reader.Basic
import Mathlib.Data.List.Nodup

/-!
# Editing the grammar of a reader

However a new reader was used and its grammar edited, the names of its rules are distinct
(`Reader.nodup_after`). So a name stands for one rule, and an edit makes exactly one rule more or less
(`OneMore`), at the place it asks for, or it is refused. An edit that is made forgets all results, one that
is refused changes nothing, and a rule that was added is taken out again by its name
(`Reader.edits_after`).
-/

set_option autoImplicit false

namespace Formula

/-- The rules `more` are `rules` and one rule besides, which stands at a position among them. -/
def OneMore (rules more : List Rule) (rule : Rule) (position : Nat) : Prop :=
  ∃ front back, front.length = position ∧ rules = front ++ back ∧ more = front ++ rule :: back

section
variable {rules more : List Rule} {rule : Rule} {position : Nat}

theorem oneMore_insertAt (rule : Rule) (h : position ≤ rules.length) :
    OneMore rules (Grammar.insertAt rules position rule) rule position :=
  ⟨rules.take position, rules.drop position, List.length_take_of_le h,
    (List.take_append_drop position rules).symm, rfl⟩

theorem oneMore_eraseIdx (h : position < rules.length) :
    OneMore (rules.eraseIdx position) rules rules[position] position := by
  refine ⟨rules.take position, rules.drop (position + 1), List.length_take_of_le (Nat.le_of_lt h),
    List.eraseIdx_eq_take_drop_succ rules position, ?_⟩
  rw [List.getElem_cons_drop, List.take_append_drop]

theorem OneMore.eraseIdx (h : OneMore rules more rule position) : more.eraseIdx position = rules := by
  obtain ⟨front, back, rfl, rfl, rfl⟩ := h
  rw [List.eraseIdx_append_of_length_le (Nat.le_refl _), Nat.sub_self, List.eraseIdx_cons_zero]

theorem OneMore.lt_length (h : OneMore rules more rule position) : position < more.length := by
  obtain ⟨front, back, rfl, rfl, rfl⟩ := h
  rw [List.length_append, List.length_cons]
  omega

/-- One rule more has a name of its own exactly when the names stay distinct. -/
theorem OneMore.nodup_iff (h : OneMore rules more rule position) :
    (more.map Rule.name).Nodup ↔ rule.name ∉ rules.map Rule.name ∧ (rules.map Rule.name).Nodup := by
  obtain ⟨front, back, rfl, rfl, rfl⟩ := h
  rw [List.map_append, List.map_cons, List.nodup_middle, List.nodup_cons, List.map_append]

/-- A rule with a name of its own is found by it. -/
theorem OneMore.position? (h : OneMore rules more rule position)
    (hname : rule.name ∉ rules.map Rule.name) : Rule.position? more rule.name = some position := by
  obtain ⟨front, back, rfl, rfl, rfl⟩ := h
  have hfront : front.findIdx? (fun r => r.name = rule.name) = none := by
    rw [List.findIdx?_eq_none_iff]
    intro r hr
    refine decide_eq_false fun heq => hname ?_
    exact List.mem_map.2 ⟨r, List.mem_append_left _ hr, heq⟩
  rw [Rule.position?, List.findIdx?_append, hfront, List.findIdx?_cons]
  simp

end

/-! ## Grammars -/

namespace Grammar

/-- The names of the rules, in order. -/
def names (g : Grammar) : List String :=
  g.rules.map Rule.name

/-- The rules and the searches of the host program determine a grammar, as all else is prepared from
them. -/
theorem eq_of_rules {g h : Grammar} (hrules : g.rules = h.rules) (hsearches : g.searches = h.searches) :
    g = h := by
  obtain ⟨rules, searches, finders, rfl⟩ := g
  obtain ⟨rules', searches', finders', rfl⟩ := h
  cases hrules
  cases hsearches
  rfl

theorem contains_iff {g : Grammar} {name : String} : g.contains name ↔ name ∈ g.names := by
  simp only [contains, position?, Rule.position?, List.findIdx?_isSome, List.any_eq_true,
    decide_eq_true_eq, names, List.mem_map]

theorem insertionPoint_le (size : Nat) (index : Int) : insertionPoint size index ≤ size := by
  unfold insertionPoint
  split <;> omega

/-- The place for a new rule is counted from the front, or for negative indexes from behind the last rule
on, and is one of the places there are. -/
theorem insertionPoint_eq (size : Nat) (index : Int) : (insertionPoint size index : Int) =
    if 0 ≤ index then min index size else max 0 (size + 1 + index) := by
  unfold insertionPoint
  by_cases h : 0 ≤ index
  · rw [if_neg (by omega), if_pos h]
    omega
  · rw [if_pos (by omega), if_neg h]
    omega

/-- Among five rules: behind the last, before the last, and too far to the front. -/
example : insertionPoint 5 (-1) = 5 ∧ insertionPoint 5 (-2) = 4 ∧
    insertionPoint 5 (-9) = 0 := by decide

variable {g : Grammar}

theorem insert?_eq_none (index : Int) {rule : Rule} (h : rule.name ∈ g.names) :
    g.insert? index rule = none :=
  if_pos (contains_iff.2 h)

theorem insert?_eq_some (index : Int) {rule : Rule} (h : rule.name ∉ g.names) :
    ∃ g', g.insert? index rule = some g' ∧ g'.searches = g.searches ∧
      OneMore g.rules g'.rules rule (insertionPoint g.rules.length index) :=
  ⟨_, if_neg fun hcontains => h (contains_iff.1 hcontains), rfl,
    oneMore_insertAt rule (insertionPoint_le _ _)⟩

theorem eraseAt?_eq_none {position : Nat} (h : g.rules.length ≤ position) :
    g.eraseAt? position = none :=
  if_neg (Nat.not_lt.2 h)

theorem eraseAt?_eq_some {position : Nat} (h : position < g.rules.length) :
    ∃ g', g.eraseAt? position = some g' ∧ OneMore g'.rules g.rules g.rules[position] position :=
  ⟨_, if_pos h, oneMore_eraseIdx h⟩

theorem erase?_eq_none {name : String} (h : name ∉ g.names) : g.erase? name = none := by
  have hposition : g.position? name = none := by
    rw [← Option.not_isSome_iff_eq_none]
    exact fun hsome => h (contains_iff.1 hsome)
  rw [erase?, hposition, Option.bind_none]

theorem erase?_eq_some {name : String} (h : name ∈ g.names) :
    ∃ g' rule position, g.erase? name = some g' ∧ rule.name = name ∧
      OneMore g'.rules g.rules rule position := by
  obtain ⟨position, hposition⟩ := Option.isSome_iff_exists.1 (contains_iff.2 h)
  obtain ⟨hlt, hname, -⟩ := List.findIdx?_eq_some_iff_getElem.1 hposition
  obtain ⟨g', heq, hmore⟩ := eraseAt?_eq_some hlt
  exact ⟨g', g.rules[position], position, by rw [erase?, hposition, Option.bind_some, heq],
    of_decide_eq_true hname, hmore⟩

/-- A rule that was added under a new name is taken out by it. -/
theorem erase?_of_oneMore {g' : Grammar} {rule : Rule} {position : Nat}
    (h : OneMore g.rules g'.rules rule position) (hsearches : g'.searches = g.searches)
    (hname : rule.name ∉ g.names) : g'.erase? rule.name = some g := by
  have hposition : g'.position? rule.name = some position := h.position? hname
  rw [erase?, hposition, Option.bind_some, eraseAt?, if_pos h.lt_length, h.eraseIdx]
  exact congrArg some (eq_of_rules rfl hsearches)

end Grammar

/-! ## Readers -/

namespace Reader

/-- What can be done with a reader: its grammar is edited, a text is read, or results are remembered and
forgotten by hand. -/
inductive Action where
  | insert (rule : Rule) (index : Int)
  | erase (name : String)
  | eraseAt (position : Nat)
  | read (text : List Char)
  | remember (text : List Char) (e : Expr)
  | forget (text : List Char)
  | forgetAll

/-- The reader after an action. -/
def perform (r : Reader) : Action → Reader
  | .insert rule index => (r.insertRule rule index).2
  | .erase name => (r.eraseRule name).2
  | .eraseAt position => (r.eraseRuleAt position).2
  | .read text => (r.read text).2
  | .remember text e => r.remember text e
  | .forget text => r.forget text
  | .forgetAll => r.forgetAll

/-- The reader after some actions. -/
def after (r : Reader) (actions : List Action) : Reader :=
  actions.foldl perform r

/-- An edit of the grammar was made: nothing is remembered any more, and the limit on depth stays. -/
structure Edited (r r' : Reader) : Prop where
  cache : r'.cache = {}
  maxDepth : r'.maxDepth = r.maxDepth

theorem edited_regrammar (r : Reader) (g : Grammar) :
    r.regrammar (some g) = (true, { r.forgetAll with grammar := g }) ∧
      r.Edited { r.forgetAll with grammar := g } :=
  ⟨rfl, rfl, rfl⟩

section
variable {r : Reader}

/-- A rule is added at its place if its name is new. It is taken out by its name, which leaves the reader
as it was but for what it remembered. -/
theorem insertRule_cases (r : Reader) (rule : Rule) (index : Int) :
    (rule.name ∈ r.grammar.names ∧ r.insertRule rule index = (false, r)) ∨
      (rule.name ∉ r.grammar.names ∧ ∃ r', r.insertRule rule index = (true, r') ∧ r.Edited r' ∧
        OneMore r.grammar.rules r'.grammar.rules rule
          (Grammar.insertionPoint r.grammar.rules.length index) ∧
        r'.eraseRule rule.name = (true, r.forgetAll)) := by
  by_cases hname : rule.name ∈ r.grammar.names
  · left
    rw [insertRule, Grammar.insert?_eq_none index hname]
    exact ⟨hname, rfl⟩
  · right
    obtain ⟨g, hg, hsearches, hmore⟩ := Grammar.insert?_eq_some index hname
    obtain ⟨heq, hedited⟩ := edited_regrammar r g
    refine ⟨hname, _, by rw [insertRule, hg, heq], hedited, hmore, ?_⟩
    rw [eraseRule, Grammar.erase?_of_oneMore hmore hsearches hname]
    rfl

/-- The rule with a name is removed, if there is one. -/
theorem eraseRule_cases (r : Reader) (name : String) :
    (name ∉ r.grammar.names ∧ r.eraseRule name = (false, r)) ∨
      ∃ r' rule position, r.eraseRule name = (true, r') ∧ r.Edited r' ∧ rule.name = name ∧
        OneMore r'.grammar.rules r.grammar.rules rule position := by
  by_cases hname : name ∈ r.grammar.names
  · right
    obtain ⟨g, rule, position, hg, hrule, hmore⟩ := Grammar.erase?_eq_some hname
    obtain ⟨heq, hedited⟩ := edited_regrammar r g
    exact ⟨_, rule, position, by rw [eraseRule, hg, heq], hedited, hrule, hmore⟩
  · left
    rw [eraseRule, Grammar.erase?_eq_none hname]
    exact ⟨hname, rfl⟩

/-- The rule at a position is removed, if there is one. -/
theorem eraseRuleAt_cases (r : Reader) (position : Nat) :
    (r.grammar.rules.length ≤ position ∧ r.eraseRuleAt position = (false, r)) ∨
      ∃ r' rule, r.eraseRuleAt position = (true, r') ∧ r.Edited r' ∧
        OneMore r'.grammar.rules r.grammar.rules rule position := by
  by_cases hlt : position < r.grammar.rules.length
  · right
    obtain ⟨g, hg, hmore⟩ := Grammar.eraseAt?_eq_some hlt
    obtain ⟨heq, hedited⟩ := edited_regrammar r g
    exact ⟨_, _, by rw [eraseRuleAt, hg, heq], hedited, hmore⟩
  · left
    rw [eraseRuleAt, Grammar.eraseAt?_eq_none (Nat.not_lt.1 hlt)]
    exact ⟨Nat.not_lt.1 hlt, rfl⟩

/-- No action gives two rules one name. -/
theorem nodup_perform (h : r.grammar.names.Nodup) (action : Action) :
    (r.perform action).grammar.names.Nodup := by
  cases action with
  | insert rule index =>
    rw [perform]
    obtain ⟨-, heq⟩ | ⟨hname, r', heq, -, hmore, -⟩ := r.insertRule_cases rule index
    · rwa [heq]
    · rw [heq]
      exact hmore.nodup_iff.2 ⟨hname, h⟩
  | erase name =>
    rw [perform]
    obtain ⟨-, heq⟩ | ⟨r', rule, position, heq, -, -, hmore⟩ := r.eraseRule_cases name
    · rwa [heq]
    · rw [heq]
      exact (hmore.nodup_iff.1 h).2
  | eraseAt position =>
    rw [perform]
    obtain ⟨-, heq⟩ | ⟨r', rule, heq, -, hmore⟩ := r.eraseRuleAt_cases position
    · rwa [heq]
    · rw [heq]
      exact (hmore.nodup_iff.1 h).2
  | read | remember | forget | forgetAll => exact h

theorem nodup_after (h : r.grammar.names.Nodup) (actions : List Action) :
    (r.after actions).grammar.names.Nodup := by
  induction actions generalizing r with
  | nil => exact h
  | cons action actions ih => exact ih (nodup_perform h action)

end

theorem nodup_default : Reader.default.grammar.names.Nodup := by
  decide +kernel

/-- **Edits do what they say.** However a new reader was used and its grammar edited before:

* the names of the rules are distinct;
* a rule with a new name is added, and it stands at the place that the index says; taking it out by its name
  leaves the rules as they were; a rule whose name is taken is refused;
* the rule with a name, or the one at a position, is removed if it exists.

Every edit that is made leaves all other rules in their order and forgets all results; every other one
changes nothing. -/
theorem edits_after (actions : List Action) :
    let r := Reader.default.after actions
    r.grammar.names.Nodup ∧
      (∀ (rule : Rule) (index : Int),
        (rule.name ∈ r.grammar.names ∧ r.insertRule rule index = (false, r)) ∨
          (rule.name ∉ r.grammar.names ∧ ∃ (r' : Reader) (position : Nat),
            r.insertRule rule index = (true, r') ∧ r.Edited r' ∧
            OneMore r.grammar.rules r'.grammar.rules rule position ∧
            (position : Int) = (if 0 ≤ index then min index r.grammar.rules.length
              else max 0 (r.grammar.rules.length + 1 + index)) ∧
            r'.eraseRule rule.name = (true, r.forgetAll))) ∧
      (∀ name : String,
        (name ∉ r.grammar.names ∧ r.eraseRule name = (false, r)) ∨
          ∃ r' rule position, r.eraseRule name = (true, r') ∧ r.Edited r' ∧ rule.name = name ∧
            OneMore r'.grammar.rules r.grammar.rules rule position) ∧
      ∀ position : Nat,
        (r.grammar.rules.length ≤ position ∧ r.eraseRuleAt position = (false, r)) ∨
          ∃ r' rule, r.eraseRuleAt position = (true, r') ∧ r.Edited r' ∧
            OneMore r'.grammar.rules r.grammar.rules rule position := by
  intro r
  refine ⟨nodup_after nodup_default actions, fun rule index => ?_, r.eraseRule_cases,
    r.eraseRuleAt_cases⟩
  obtain hrefused | ⟨hname, r', heq, hedited, hmore, herase⟩ := r.insertRule_cases rule index
  · exact .inl hrefused
  · exact .inr ⟨hname, r', _, heq, hedited, hmore, Grammar.insertionPoint_eq _ _, herase⟩

end Reader

end Formula
