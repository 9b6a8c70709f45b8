import Formula.Proofs.Reader.Step

/-!
# Brackets that do not nest

Reading fails because of brackets that do not nest exactly when those of the text do not, and then it
says so of the whole text (`Reader.read_unbalanced_iff`). In one direction this is the first thing a step
notices; in the other the brackets nest in everything that is read in parts. What is remembered does not
change this: a key keeps all brackets (`nested_congr_of_key`), and only results for texts with nested
brackets are remembered (`Cache.Balanced`).
-/

set_option autoImplicit false

namespace Formula

/-! ## Brackets decide -/

theorem nested_of_filter {text : List Char} (h : Nested (text.filter isBracket)) : Nested text := by
  induction hlen : text.length using Nat.strongRecOn generalizing text with
  | ind n ih =>
    cases text with
    | nil => exact .nil
    | cons c text =>
      rw [List.length_cons] at hlen
      cases hc : isBracket c with
      | false =>
        rw [List.filter_cons_of_neg (by simp [hc])] at h
        exact .char hc (ih text.length (by omega) h rfl)
      | true =>
        rw [List.filter_cons_of_pos hc] at h
        generalize hbrackets : text.filter isBracket = brackets at h
        cases h with
        | char hnot => rw [hc] at hnot; cases hnot
        | @group _ k s t hoc hs ht =>
          -- The text goes on with a stretch for what the bracket encloses, up to its closing bracket.
          obtain ⟨u, v, rfl, hu, hv⟩ := List.filter_eq_append_iff.1 hbrackets
          obtain ⟨x, y, rfl, hx, -, hy⟩ := List.filter_eq_cons_iff.1 hv
          have hux : (u ++ x).filter isBracket = s := by
            rw [List.filter_append, hu, List.filter_eq_nil_iff.2 hx, List.append_nil]
          simp only [List.length_append, List.length_cons] at hlen
          have hinner : Nested (u ++ x) :=
            ih (u ++ x).length (by rw [List.length_append]; omega) (hux ▸ hs) rfl
          have hrest : Nested y := ih y.length (by omega) (hy ▸ ht) rfl
          rw [← List.append_assoc]
          exact .group hoc hinner hrest

/-- Whether brackets nest is a matter of the brackets. -/
theorem nested_filter_iff (text : List Char) : Nested (text.filter isBracket) ↔ Nested text :=
  ⟨nested_of_filter, Nested.filter fun _ h => h⟩

/-! ## Keys keep brackets -/

/-- A key keeps all characters but blanks. -/
theorem filter_keyFrom {keep : Char → Bool} (hkeep : ∀ c, Text.isBlank c = true → keep c = false)
    (last : Option Char) (gap : Bool) (text : List Char) :
    (keyFrom last gap text).filter keep = text.filter keep := by
  induction text generalizing last gap with
  | nil => rfl
  | cons c text ih =>
    rw [keyFrom]
    split
    · next hblank =>
      rw [ih, List.filter_cons_of_neg (by simp [hkeep c hblank])]
    · have hrest : (c :: keyFrom (some c) false text).filter keep = (c :: text).filter keep := by
        rw [List.filter_cons, List.filter_cons, ih]
      dsimp only
      split
      · rw [List.filter_cons_of_neg (by simp [hkeep ' ' (by decide)]), hrest]
      · exact hrest

/-- Texts with the same key differ in blanks only. -/
theorem filter_congr_of_key {keep : Char → Bool} (hkeep : ∀ c, Text.isBlank c = true → keep c = false)
    {p q : List Char} (h : cacheKey p = cacheKey q) : p.filter keep = q.filter keep := by
  have hkey : keyFrom none false p = keyFrom none false q := String.ofList_injective h
  rw [← filter_keyFrom hkeep none false p, hkey, filter_keyFrom hkeep]

/-- Texts with the same key have the same brackets. -/
theorem nested_congr_of_key {p q : List Char} (h : cacheKey p = cacheKey q) : Nested p ↔ Nested q := by
  rw [← nested_filter_iff p, ← nested_filter_iff q,
    filter_congr_of_key (fun _ hblank => isBracket_of_isBlank hblank) h]

/-! ## Results for texts with nested brackets only -/

/-- Results are remembered for texts with nested brackets only. -/
def Cache.Balanced (cache : Cache) : Prop :=
  ∀ p e, cache.get? (cacheKey p) = some e → Nested p

theorem Cache.balanced_empty : Cache.Balanced {} := by
  intro p e h
  cases h

theorem Cache.Balanced.insert {cache : Cache} (h : cache.Balanced) {p : List Char} (hp : Nested p)
    (e : Expr) : Cache.Balanced (cache.insert (cacheKey p) e) := by
  intro q e' hq
  obtain ⟨hkey, -⟩ | hq := Table.get?_insert_eq_some hq
  · exact (nested_congr_of_key hkey).2 hp
  · exact h q e' hq

/-- Whether an error is about brackets that do not nest. -/
def ReadError.isUnbalanced : ReadError → Bool
  | .unbalanced _ => true
  | _ => false

/-- Where brackets nest, reading does not fail because of them. -/
theorem stays_of_nested (limit n : Nat) {p : List Char} (hp : Nested p) :
    ReadM.Stays Cache.Balanced (fun e => e.isUnbalanced = false)
      (Grammar.default.readWithin limit n p) := by
  refine stays_readWithin (T := {p | Nested p}) ?_ (fun _ _ => rfl) (fun _ _ _ => rfl)
    (fun p hp e cache h => h.insert hp e) limit n hp
  intro p hp s hs
  refine ⟨fun q hq => hs.nested hq, fun e he => ?_⟩
  rcases hs.eq_fail he with ⟨rfl, -⟩ | ⟨-, hnot⟩
  · rfl
  · exact absurd hp hnot

/-- Where brackets do not nest, reading fails at once. -/
theorem readWithin_of_not_nested (limit n : Nat) {p : List Char} (hp : ¬ Nested p) {cache : Cache}
    (h : cache.Balanced) :
    (Grammar.default.readWithin limit (n + 1) p).result cache = (.error (.unbalanced p), cache) := by
  have hget : cache.get? (cacheKey p) = none := by
    cases hget : cache.get? (cacheKey p) with
    | none => rfl
    | some e => exact absurd (h p e hget) hp
  rw [readWithin_result, hget]
  dsimp only
  rw [readStep_eq ReadM.throw_bind, plan_of_not_nested hp]
  rfl

/-! ## Sessions -/

namespace Reader

/-- The reader after it has read some texts, one after the other. -/
def afterTexts (r : Reader) (session : List (List Char)) : Reader :=
  session.foldl (fun r p => (r.read p).2) r

variable {depth : Nat} {cache : Cache}

theorem read_eq (depth : Nat) (cache : Cache) (text : List Char) :
    ({ ofDepth depth with cache } : Reader).read text =
      (((Grammar.default.readWithin depth depth text).result cache).1,
        { ofDepth depth with cache := ((Grammar.default.readWithin depth depth text).result cache).2 }) :=
  rfl

/-- Reading a text keeps what is remembered balanced. -/
theorem balanced_read (hdepth : 0 < depth) (h : cache.Balanced) (text : List Char) :
    ((Grammar.default.readWithin depth depth text).result cache).2.Balanced := by
  by_cases hp : Nested text
  · exact (stays_of_nested depth depth hp cache h).1
  · obtain ⟨n, rfl⟩ := Nat.exists_eq_add_one_of_ne_zero (Nat.ne_of_gt hdepth)
    rw [readWithin_of_not_nested _ n hp h]
    exact h

/-- What every reading keeps of a cache, a new reader has whatever it has read. -/
theorem exists_cache_of_keeps {I : Cache → Prop} (hempty : I {})
    (hread : ∀ cache, I cache → ∀ text,
      I ((Grammar.default.readWithin depth depth text).result cache).2) (session : List (List Char)) :
    ∃ cache : Cache, I cache ∧ (ofDepth depth).afterTexts session = { ofDepth depth with cache } := by
  suffices h : ∀ cache : Cache, I cache → ∃ cache' : Cache, I cache' ∧
      ({ ofDepth depth with cache } : Reader).afterTexts session = { ofDepth depth with cache := cache' }
    from h {} hempty
  induction session with
  | nil => exact fun cache h => ⟨cache, h, rfl⟩
  | cons p session ih =>
    intro cache h
    rw [afterTexts, List.foldl_cons, read_eq]
    exact ih _ (hread cache h p)

/-- Whatever a new reader has read, it remembers results for texts with nested brackets only. -/
theorem exists_cache_afterTexts (hdepth : 0 < depth) (session : List (List Char)) :
    ∃ cache : Cache, cache.Balanced ∧
      (ofDepth depth).afterTexts session = { ofDepth depth with cache } :=
  exists_cache_of_keeps Cache.balanced_empty (fun _ h => balanced_read hdepth h) session

/-- A reader that has read any texts fails because of brackets that do not nest if and only if those of
the text do not, and says so of the text itself. -/
theorem read_unbalanced_iff (hdepth : 0 < depth) (session : List (List Char)) (text : List Char) :
    ((∃ input, (((ofDepth depth).afterTexts session).read text).1 = .error (.unbalanced input)) ↔
        ¬ Nested text) ∧
      (hide? .brackets text = none ↔ ¬ Nested text) ∧
      ∀ input, (((ofDepth depth).afterTexts session).read text).1 = .error (.unbalanced input) →
        input = text := by
  obtain ⟨cache, h, hreader⟩ := exists_cache_afterTexts hdepth session
  rw [hreader, read_eq]
  by_cases hp : Nested text
  · have hnever : ∀ input, ((Grammar.default.readWithin depth depth text).result cache).1 ≠
        .error (.unbalanced input) := by
      intro input he
      have := (stays_of_nested depth depth hp cache h).2 _ he
      cases this
    exact ⟨⟨fun ⟨input, he⟩ => absurd he (hnever input), fun hnot => absurd hp hnot⟩,
      hide?_eq_none_iff, fun input he => absurd he (hnever input)⟩
  · obtain ⟨n, rfl⟩ := Nat.exists_eq_add_one_of_ne_zero (Nat.ne_of_gt hdepth)
    rw [readWithin_of_not_nested _ n hp h]
    refine ⟨⟨fun _ => hp, fun _ => ⟨text, rfl⟩⟩, hide?_eq_none_iff, fun input he => ?_⟩
    cases he
    rfl

theorem read_unbalanced_iff_crossed : 0 < 256 ∧ hide? .brackets "[1, (2]".toList = none ∧
    ∃ input, (((ofDepth 256).afterTexts ["[1, (2)]".toList, "(1".toList]).read "[1, (2]".toList).1 =
      .error (.unbalanced input) := by
  have hhide : hide? .brackets "[1, (2]".toList = none := by rfl
  obtain ⟨hread, hnested, -⟩ := read_unbalanced_iff (Nat.zero_lt_succ 255)
    ["[1, (2)]".toList, "(1".toList] "[1, (2]".toList
  exact ⟨by decide, hhide, hread.2 (hnested.1 hhide)⟩

end Reader

end Formula
