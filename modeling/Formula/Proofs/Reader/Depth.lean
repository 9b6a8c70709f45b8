import Formula.Proofs.Reader.Cached

/-!
# Two limits on depth

A reader gives up where it would nest deeper than its limit, and nothing in a step of reading catches
that: a step whose piece is given up is given up itself. So a lower limit only cuts. Two readers that
differ in their limits have the same result and remember the same, or the one with the lower limit gives
up and names that limit (`Reader.read_cut`).

Both runs start from the same remembered results. They remember the same results for the pieces as long
as neither gives up, so they also find the same texts remembered later on; this is why `CutOrSame`
speaks of all that may have been remembered before.
-/

set_option autoImplicit false

namespace Formula

section

variable {α β : Type}

/-- From whatever is remembered, the first computation is given up because of this limit, or both have
the same result and remember the same then. -/
def CutOrSame (limit : Nat) (x y : ReadM α) : Prop :=
  ∀ cache : Cache, (∃ piece, (x.result cache).1 = .error (.tooDeep limit piece)) ∨
    x.result cache = y.result cache

theorem CutOrSame.refl (limit : Nat) (x : ReadM α) : CutOrSame limit x x :=
  fun _ => .inr rfl

/-- What follows a computation that was given up is not carried out. -/
theorem CutOrSame.bind {limit : Nat} {x y : ReadM α} {f g : α → ReadM β} (hx : CutOrSame limit x y)
    (hf : ∀ a, CutOrSame limit (f a) (g a)) : CutOrSame limit (x >>= f) (y >>= g) := by
  intro cache
  rw [ReadM.result_bind, ReadM.result_bind]
  rcases hx cache with ⟨piece, hcut⟩ | hsame
  · left
    refine ⟨piece, ?_⟩
    rcases hresult : x.result cache with ⟨e | a, cache'⟩
    · rw [hresult] at hcut
      exact congrArg Except.error (Except.error.inj hcut)
    · rw [hresult] at hcut
      cases hcut
  · rw [← hsame]
    rcases x.result cache with ⟨e | a, cache'⟩
    · exact .inr rfl
    · exact hf a cache'

end

/-- Reading with a limit, beside reading with a higher one. -/
def Simulation.cut (limit : Nat) : Simulation ReadM ReadM where
  rel := CutOrSame limit
  pure _ := CutOrSame.refl limit _
  throw _ := CutOrSame.refl limit _
  bind := CutOrSame.bind
  throw_bind_left := ReadM.throw_bind
  throw_bind_right := ReadM.throw_bind

/-- With fewer levels left, reading is given up or goes as with more. -/
theorem cutOrSame_readWithin (g : Grammar) (limit limit' : Nat) {n n' : Nat} (h : n ≤ n')
    (text : List Char) : CutOrSame limit (g.readWithin limit n text) (g.readWithin limit' n' text) := by
  induction n generalizing n' text with
  | zero =>
    intro cache
    rw [readWithin_result, readWithin_result]
    cases cache.get? (cacheKey text) with
    | some e => exact .inr rfl
    | none => exact .inl ⟨text, rfl⟩
  | succ n ih =>
    obtain ⟨n', rfl⟩ : ∃ m, n' = m + 1 := ⟨n' - 1, by omega⟩
    have hstep : CutOrSame limit (readStep g (g.readWithin limit n) text)
        (readStep g (g.readWithin limit' n') text) :=
      (Simulation.cut limit).readStep fun q _ => ih (by omega) q
    intro cache
    rw [readWithin_result, readWithin_result]
    cases cache.get? (cacheKey text) with
    | some e => exact .inr rfl
    | none =>
      dsimp only
      rcases hstep cache with ⟨piece, hcut⟩ | hsame
      · left
        refine ⟨piece, ?_⟩
        rcases hresult : (readStep g (g.readWithin limit n) text).result cache with ⟨e | e, cache'⟩
        · rw [hresult] at hcut
          exact hcut
        · rw [hresult] at hcut
          cases hcut
      · right
        rw [hsame]

namespace Reader

/-- The limit on depth only cuts. Whatever the grammar and whatever is remembered, of two readers that
differ in their limits the one with the lower limit gives up naming it, or both have the same result
and remember the same afterwards. -/
theorem read_cut (g : Grammar) (cache : Cache) {depth depth' : Nat} (h : depth ≤ depth')
    (text : List Char) :
    (((⟨g, cache, depth⟩ : Reader).read text).1 = ((⟨g, cache, depth'⟩ : Reader).read text).1 ∧
        ((⟨g, cache, depth⟩ : Reader).read text).2.cache =
          ((⟨g, cache, depth'⟩ : Reader).read text).2.cache) ∨
      ∃ piece, ((⟨g, cache, depth⟩ : Reader).read text).1 = .error (.tooDeep depth piece) := by
  obtain hcut | hsame := cutOrSame_readWithin g depth depth' h text cache
  · exact .inr hcut
  · obtain ⟨hresult, hcache⟩ := Prod.ext_iff.1 hsame
    exact .inl ⟨hresult, hcache⟩

/-- Two groups around a number need three levels: a limit of two cuts, one of three does not. -/
theorem read_cut_groups :
    (2 ≤ 256 ∧ ∃ piece, ((⟨.default, {}, 2⟩ : Reader).read "((1))".toList).1 =
      .error (.tooDeep 2 piece)) ∧
    (3 ≤ 256 ∧ ((⟨.default, {}, 3⟩ : Reader).read "((1))".toList).2.cache =
      ((⟨.default, {}, 256⟩ : Reader).read "((1))".toList).2.cache) := by
  have htwo : ((⟨.default, {}, 2⟩ : Reader).read "((1))".toList).1.isOk = false := by
    decide +kernel
  have hthree : ((⟨.default, {}, 3⟩ : Reader).read "((1))".toList).1.isOk = true := by
    decide +kernel
  obtain ⟨hresult, hcache⟩ | ⟨piece, hcut⟩ :=
    read_cut .default {} (show 3 ≤ 256 by decide) "((1))".toList
  · refine ⟨⟨by decide, ?_⟩, by decide, hcache⟩
    obtain ⟨hsame, -⟩ | hcut := read_cut .default {} (show 2 ≤ 256 by decide) "((1))".toList
    · rw [hsame, ← hresult, hthree] at htwo
      cases htwo
    · exact hcut
  · rw [hcut] at hthree
    cases hthree

end Reader

end Formula
