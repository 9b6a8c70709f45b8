import Formula.Grammar.Sliced
import Formula.Proofs.Grammar.OperatorSearch
import Formula.Proofs.Text.Spans

/-!
# What an operator search finds slice by slice

The search of an operator goes over cuts of the text, in their order, so all slices that its tests are given
exist, whatever the tests say (`OperatorTests.find?_backward`, `find?_forward`). From the right it finds the
last span of those that are tried and fit; from the left it finds the first one of those that are the
longest where they start.

`OperatorSearch.find?_sliced`: the search that answers for all cuts at once finds the same.
-/

set_option autoImplicit false

namespace Formula

/-! ## Lists searched with tests that may fail -/

section

variable {α β : Type} {l : List α} {p : α → Option Bool} {q : α → Bool}

theorem filterM_eq_some (h : ∀ a ∈ l, p a = some (q a)) : l.filterM p = some (l.filter q) := by
  have haux : ∀ kept, l.filterAuxM p kept = some ((l.filter q).reverse ++ kept) := by
    induction l with
    | nil => exact fun kept => rfl
    | cons a l ih =>
      intro kept
      rw [List.filterAuxM, h a List.mem_cons_self]
      refine (ih (fun b hb => h b (List.mem_cons_of_mem a hb)) _).trans ?_
      cases hq : q a <;> simp [hq]
  rw [List.filterM, haux, List.append_nil]
  exact congrArg some (List.reverse_reverse _)

theorem findM?_eq_some (h : ∀ a ∈ l, p a = some (q a)) : l.findM? p = some (l.find? q) := by
  induction l with
  | nil => rfl
  | cons a l ih =>
    rw [List.findM?, h a List.mem_cons_self, List.find?_cons]
    cases q a with
    | true => rfl
    | false => exact ih fun b hb => h b (List.mem_cons_of_mem a hb)

theorem findSomeM?_eq_some {f : α → Option (Option β)} {g : α → Option β}
    (h : ∀ a ∈ l, f a = some (g a)) : l.findSomeM? f = some (l.findSome? g) := by
  induction l with
  | nil => rfl
  | cons a l ih =>
    rw [List.findSomeM?, h a List.mem_cons_self, List.findSome?_cons]
    cases g a with
    | some b => rfl
    | none => exact ih fun b hb => h b (List.mem_cons_of_mem a hb)

/-- What is found first in an ordered list comes before all else where something is found. -/
theorem exists_of_findSome? {r : α → α → Prop} {g : α → Option β} {b : β} (hordered : l.Pairwise r)
    (h : l.findSome? g = some b) :
    ∃ a ∈ l, g a = some b ∧ ∀ a' ∈ l, g a' ≠ none → a' = a ∨ r a a' := by
  obtain ⟨before, a, after, rfl, ha, hbefore⟩ := List.findSome?_eq_some_iff.1 h
  have hfirst : (before ++ a :: after).find? (fun a => (g a).isSome) = some a := by
    refine List.find?_eq_some_iff_append.2 ⟨by rw [ha]; rfl, before, after, rfl, fun a' ha' => ?_⟩
    rw [hbefore a' ha']
    rfl
  refine ⟨a, List.mem_append_right before List.mem_cons_self, ha, fun a' ha' hsome => ?_⟩
  exact OperatorSearch.eq_or_rel_of_find? hordered hfirst ha' (Option.isSome_iff_ne_none.2 hsome)

end

namespace OperatorTests

variable {s : OperatorTests} {text : List Char} {start stop : Nat}

/-- Whether an operator may stand between two texts. -/
def admits (s : OperatorTests) (front back : List Char) : Bool :=
  !(s.notPrecededBy.any fun c => front.getLast? = some c) && (s.left front && s.right back)

/-- A span that the search from the right tries, and with operands on both sides. -/
structure FitsBackward (s : OperatorTests) (span : Span text) : Prop where
  ne_nil : span.inside ≠ []
  reaches : (s.firstAtEnd (span.front ++ span.inside)).getD span.stop ≤ span.start
  exact : s.exact span.inside = true
  admits : s.admits span.front span.back = true

/-- A span that the search from the left tries, and with operands on both sides. -/
structure FitsForward (s : OperatorTests) (span : Span text) : Prop where
  ne_nil : span.inside ≠ []
  exact : s.exact span.inside = true
  longest : ∀ t : Span text, t.start = span.start → t.inside ≠ [] → s.exact t.inside = true →
    t.stop ≤ span.stop
  admits : s.admits span.front span.back = true

theorem accepts?_span (s : OperatorTests) (span : Span text) :
    s.accepts? text span.start span.stop = some (s.admits span.front span.back) := by
  rw [accepts?, admits, span.before?_start, span.from?_stop]
  dsimp only [Option.bind_eq_bind, Option.bind_some]
  cases hpreceded : s.notPrecededBy.any fun c => span.front.getLast? = some c with
  | true => rw [if_pos rfl]; rfl
  | false => rw [if_neg Bool.false_ne_true]; rfl

theorem tokenAt?_span (span : Span text) :
    Finder.tokenAt? text (span.start, span.stop) = some span.token := by
  rw [Finder.tokenAt?, span.slice?]
  rfl

/-! ## From the right -/

/-- The spans that are tried at an end are those from where the first match begins on. -/
theorem startsOf?_spec (hstop : Text.isCut text stop = true) :
    ∃ starts, s.startsOf? text stop = some starts ∧ starts.Pairwise (· < ·) ∧
      ∀ start, start ∈ starts ↔ ∃ span : Span text, span.start = start ∧ span.stop = stop ∧
        span.inside ≠ [] ∧ (s.firstAtEnd (span.front ++ span.inside)).getD span.stop ≤ span.start ∧
          s.exact span.inside = true := by
  have hzero : Text.isCut text 0 = true := Text.isCut_iff.2 ⟨[], text, rfl, rfl⟩
  obtain ⟨whole, -, rfl⟩ := Text.exists_span hzero hstop (Nat.zero_le _)
  let passes : Nat → Bool := fun start =>
    ((Text.slice? start whole.stop text).map s.exact).getD false
  let first := (s.firstAtEnd (whole.front ++ whole.inside)).getD whole.stop
  have hspan : ∀ start ∈ Text.cuts first whole.stop text, ∃ span : Span text, span.start = start ∧
      span.stop = whole.stop := fun start hstart =>
    have ⟨_, hlt, hcut⟩ := Text.mem_cuts.1 hstart
    Text.exists_span hcut (Text.isCut_stop whole) (Nat.le_of_lt hlt)
  have hpasses : ∀ span : Span text, span.stop = whole.stop →
      passes span.start = s.exact span.inside := by
    intro span hstop
    simp only [passes, ← hstop, span.slice?, Option.map_some, Option.getD_some]
  refine ⟨(Text.cuts first whole.stop text).filter passes, ?_, (Text.pairwise_cuts ..).filter _, ?_⟩
  · rw [startsOf?, whole.before?_stop]
    refine filterM_eq_some fun start hstart => ?_
    obtain ⟨span, rfl, hstop⟩ := hspan start hstart
    rw [hpasses span hstop, ← hstop, span.slice?]
    rfl
  · intro start
    rw [List.mem_filter, Text.mem_cuts]
    constructor
    · rintro ⟨⟨hfirst, hlt, hcut⟩, hpass⟩
      obtain ⟨span, rfl, hstop⟩ := Text.exists_span hcut (Text.isCut_stop whole) (Nat.le_of_lt hlt)
      refine ⟨span, rfl, hstop, Span.start_lt_stop.1 (hstop ▸ hlt), ?_, hpasses span hstop ▸ hpass⟩
      have hinit := span.before?_stop
      rw [hstop, whole.before?_stop] at hinit
      rw [← Option.some.inj hinit, hstop]
      exact hfirst
    · rintro ⟨span, rfl, hstop, hne, hfirst, hexact⟩
      have hinit := span.before?_stop
      rw [hstop, whole.before?_stop] at hinit
      rw [← Option.some.inj hinit, hstop] at hfirst
      exact ⟨⟨hfirst, hstop ▸ Span.start_lt_stop.2 hne, Text.isCut_start span⟩,
        (hpasses span hstop).trans hexact⟩

/-- At an end the first span that fits is found. -/
theorem findBefore?_spec (hstop : Text.isCut text stop = true) :
    ∃ found, s.findBefore? text stop = some found ∧
      (∀ token, found = some token → ∃ span : Span text, span.stop = stop ∧ s.FitsBackward span ∧
        (∀ t : Span text, t.stop = stop → s.FitsBackward t → span.start ≤ t.start) ∧
        span.token = token) ∧
      (found = none → ∀ t : Span text, t.stop = stop → ¬ s.FitsBackward t) := by
  obtain ⟨starts, hstarts, hsorted, hmem⟩ := startsOf?_spec (s := s) hstop
  let passes : Nat → Bool := fun start => (s.accepts? text start stop).getD false
  have hpasses : ∀ span : Span text, span.stop = stop →
      passes span.start = s.admits span.front span.back := by
    rintro span rfl
    simp only [passes, s.accepts?_span span, Option.getD_some]
  have hfind : starts.findM? (fun start => s.accepts? text start stop) = some (starts.find? passes) := by
    refine findM?_eq_some fun start hstart => ?_
    obtain ⟨span, rfl, rfl, -⟩ := (hmem start).1 hstart
    rw [s.accepts?_span span, hpasses span rfl]
  have hfits : ∀ t : Span text, t.stop = stop → s.FitsBackward t →
      t.start ∈ starts ∧ passes t.start = true := fun t ht hfit =>
    ⟨(hmem t.start).2 ⟨t, rfl, ht, hfit.ne_nil, hfit.reaches, hfit.exact⟩,
      (hpasses t ht).trans hfit.admits⟩
  rw [findBefore?, hstarts]
  dsimp only [Option.bind_eq_bind, Option.bind_some]
  rw [hfind, Option.bind_some]
  cases hfound : starts.find? passes with
  | none =>
    refine ⟨none, rfl, nofun, fun _ t ht hfit => ?_⟩
    obtain ⟨hstart, hpass⟩ := hfits t ht hfit
    exact List.find?_eq_none.1 hfound _ hstart hpass
  | some start =>
    obtain ⟨span, rfl, rfl, hne, hreaches, hexact⟩ := (hmem start).1 (List.mem_of_find?_eq_some hfound)
    have hpass : passes span.start = true := List.find?_some hfound
    refine ⟨some span.token, ?_, ?_, nofun⟩
    · simp only [tokenAt?_span span, Option.bind_some]
      rfl
    rintro token ⟨⟩
    refine ⟨span, rfl, ⟨hne, hreaches, hexact, hpasses span rfl ▸ hpass⟩, fun t ht hfit => ?_, rfl⟩
    obtain ⟨hstart, hpass'⟩ := hfits t ht hfit
    rcases OperatorSearch.eq_or_rel_of_find? hsorted hfound hstart hpass' with heq | hlt
    · exact Nat.le_of_eq heq.symm
    · exact Nat.le_of_lt hlt

/-- The search from the right never takes a slice that does not exist. It finds the last span that fits,
and nothing only if none does. -/
theorem find?_backward (hr : s.rightToLeft = true) (text : List Char) :
    ∃ found, s.find? text = some found ∧
      (∀ token, found = some token ↔ ∃ span : Span text, span.IsLast s.FitsBackward ∧
        span.token = token) ∧
      (found = none ↔ ∀ span : Span text, ¬ s.FitsBackward span) := by
  let stops := (Text.cuts 1 (Text.byteSize text + 1) text).reverse
  let g : Nat → Option Token := fun stop => (s.findBefore? text stop).join
  have hcut : ∀ stop ∈ stops, Text.isCut text stop = true := fun stop hstop =>
    (Text.mem_cuts.1 (List.mem_reverse.1 hstop)).2.2
  have hg : ∀ stop, Text.isCut text stop = true → s.findBefore? text stop = some (g stop) := by
    intro stop hstop
    obtain ⟨found, hfound, -⟩ := findBefore?_spec (s := s) hstop
    simp only [g, hfound, Option.join_some]
  have hmem : ∀ t : Span text, s.FitsBackward t → t.stop ∈ stops := by
    intro t hfit
    have hlt := Span.start_lt_stop.2 hfit.ne_nil
    have hle := t.stop_le
    exact List.mem_reverse.2 (Text.mem_cuts.2 ⟨by omega, by omega, Text.isCut_stop t⟩)
  have hno : ∀ t : Span text, s.FitsBackward t → g t.stop ≠ none := by
    intro t hfit hnone
    obtain ⟨found, hfound, -, hempty⟩ := findBefore?_spec (s := s) (Text.isCut_stop t)
    rw [hg _ (Text.isCut_stop t)] at hfound
    cases hfound
    exact hempty hnone t rfl hfit
  refine ⟨stops.findSome? g, ?_, Span.find_iff (fun _ h => h.1) (fun _ _ => Span.IsLast.unique) ?_ ?_⟩
  · rw [find?, if_pos hr]
    exact findSomeM?_eq_some fun stop hstop => hg stop (hcut stop hstop)
  · intro token hfind
    have hsorted : stops.Pairwise (· > ·) := List.pairwise_reverse.2 (Text.pairwise_cuts ..)
    obtain ⟨stop, hstop, htoken, hlast⟩ := exists_of_findSome? hsorted hfind
    obtain ⟨found, hfound, hbest, -⟩ := findBefore?_spec (s := s) (hcut stop hstop)
    rw [hg stop (hcut stop hstop)] at hfound
    cases hfound
    obtain ⟨span, rfl, hfit, hleast, htoken⟩ := hbest token htoken
    refine ⟨span, ⟨hfit, fun t ht => ?_⟩, htoken⟩
    rcases hlast t.stop (hmem t ht) (hno t ht) with heq | hlt
    · exact .inr ⟨heq, hleast t heq ht⟩
    · exact .inl hlt
  · intro hfind t hfit
    exact hno t hfit (List.findSome?_eq_none_iff.1 hfind _ (hmem t hfit))

/-! ## From the left -/

/-- The lengths in bytes of the beginnings of a text that are the operator, ascending. -/
def lengths (s : OperatorTests) (rest : List Char) : List Nat :=
  (Text.cuts 1 (Text.byteSize rest + 1) rest).filter fun n => (Text.before? n rest).any s.exact

theorem mem_lengths {rest : List Char} {n : Nat} : n ∈ s.lengths rest ↔
    ∃ w back, w ++ back = rest ∧ Text.byteSize w = n ∧ w ≠ [] ∧ s.exact w = true := by
  rw [lengths, List.mem_filter, Text.mem_cuts]
  constructor
  · rintro ⟨⟨hpos, -, hcut⟩, hexact⟩
    obtain ⟨w, back, rfl, rfl⟩ := Text.isCut_iff.1 hcut
    rw [Text.before?_append] at hexact
    refine ⟨w, back, rfl, rfl, ?_, hexact⟩
    rintro rfl
    exact absurd hpos (by simp)
  · rintro ⟨w, back, rfl, rfl, hne, hexact⟩
    have hpos := Text.byteSize_pos hne
    refine ⟨⟨hpos, ?_, Text.isCut_iff.2 ⟨w, back, rfl, rfl⟩⟩, ?_⟩
    · rw [Text.byteSize_append]
      omega
    · rw [Text.before?_append]
      exact hexact

theorem longestFrom?_append (s : OperatorTests) (front rest : List Char) :
    s.longestFrom? (front ++ rest) (Text.byteSize front) =
      some ((s.lengths rest).getLast?.map (Text.byteSize front + ·)) := by
  have hends : (Text.cuts 1 (Text.byteSize rest + 1) rest).filterM (fun n =>
      (Text.before? n rest).bind fun w => some (s.exact w)) = some (s.lengths rest) := by
    refine filterM_eq_some fun n hn => ?_
    obtain ⟨w, back, rfl, rfl⟩ := Text.isCut_iff.1 (Text.mem_cuts.1 hn).2.2
    rw [Text.before?_append]
    rfl
  rw [longestFrom?, Text.from?_append]
  exact congrArg (Option.bind · _) hends

/-- The longest span at a start is the operator, and no other one there goes on longer. -/
theorem longestFrom?_spec (hstart : Text.isCut text start = true) :
    ∃ found, s.longestFrom? text start = some found ∧
      (∀ stop, found = some stop → ∃ span : Span text, span.start = start ∧ span.stop = stop ∧
        span.inside ≠ [] ∧ s.exact span.inside = true ∧
        ∀ t : Span text, t.start = start → t.inside ≠ [] → s.exact t.inside = true →
          t.stop ≤ stop) ∧
      (found = none → ∀ t : Span text, t.start = start → t.inside ≠ [] →
        s.exact t.inside = false) := by
  obtain ⟨front, rest, rfl, rfl⟩ := Text.isCut_iff.1 hstart
  have hmem : ∀ t : Span (front ++ rest), t.start = Text.byteSize front → t.inside ≠ [] →
      s.exact t.inside = true → Text.byteSize t.inside ∈ s.lengths rest := by
    intro t ht hne hexact
    have hrest := t.from?_start
    rw [ht, Text.from?_append] at hrest
    exact mem_lengths.2 ⟨_, t.back, (Option.some.inj hrest).symm, rfl, hne, hexact⟩
  refine ⟨_, s.longestFrom?_append front rest, ?_, ?_⟩
  · intro stop hstop
    obtain ⟨n, hlast, rfl⟩ := Option.map_eq_some_iff.1 hstop
    obtain ⟨w, back, rfl, rfl, hne, hexact⟩ := mem_lengths.1 (List.mem_of_getLast? hlast)
    refine ⟨⟨front, w, back, List.append_assoc ..⟩, rfl, Text.byteSize_append .., hne, hexact, ?_⟩
    intro t ht htne htexact
    have hsorted : (s.lengths (w ++ back)).Pairwise (· < ·) := (Text.pairwise_cuts ..).filter _
    obtain ⟨shorter, hlengths⟩ := List.getLast?_eq_some_iff.1 hlast
    have htmem := hmem t ht htne htexact
    rw [hlengths] at htmem hsorted
    rw [Span.stop_eq, ht]
    refine Nat.add_le_add_left ?_ _
    rcases List.mem_append.1 htmem with htmem | htmem
    · exact Nat.le_of_lt
        ((List.pairwise_append.1 hsorted).2.2 _ htmem _ (List.mem_singleton_self _))
    · exact Nat.le_of_eq (List.mem_singleton.1 htmem)
  · intro hnone t ht hne
    rw [Option.map_eq_none_iff, List.getLast?_eq_none_iff] at hnone
    refine Bool.eq_false_iff.2 fun hexact => ?_
    have htmem := hmem t ht hne hexact
    rw [hnone] at htmem
    cases htmem

/-- The longest span at a start is found if it fits. -/
theorem findFrom?_spec (hstart : Text.isCut text start = true) :
    ∃ found, s.findFrom? text start = some found ∧
      (∀ token, found = some token → ∃ span : Span text, span.start = start ∧ s.FitsForward span ∧
        span.token = token) ∧
      (found = none → ∀ t : Span text, t.start = start → ¬ s.FitsForward t) := by
  obtain ⟨found, hfound, hlongest, hnone⟩ := longestFrom?_spec (s := s) hstart
  rw [findFrom?, hfound]
  dsimp only [Option.bind_eq_bind, Option.bind_some]
  cases hstop : found with
  | none =>
    refine ⟨none, rfl, nofun, fun _ t ht hfit => ?_⟩
    have h := hnone hstop t ht hfit.ne_nil
    rw [hfit.exact] at h
    cases h
  | some stop =>
    obtain ⟨span, rfl, rfl, hne, hexact, hbest⟩ := hlongest stop hstop
    have hlong : ∀ t : Span text, t.start = span.start → t.inside ≠ [] → s.exact t.inside = true →
        t.stop ≤ span.stop := hbest
    simp only [s.accepts?_span span, Option.bind_some]
    cases hadmits : s.admits span.front span.back with
    | true =>
      refine ⟨some span.token, ?_, ?_, nofun⟩
      · rw [if_pos rfl, tokenAt?_span]
        rfl
      · rintro token ⟨⟩
        exact ⟨span, rfl, ⟨hne, hexact, hlong, hadmits⟩, rfl⟩
    | false =>
      refine ⟨none, rfl, nofun, fun _ t ht hfit => ?_⟩
      have h1 := hlong t ht hfit.ne_nil hfit.exact
      have h2 := hfit.longest span ht.symm hne hexact
      obtain rfl := Span.ext_of_eq ht (Nat.le_antisymm h1 h2)
      rw [hfit.admits] at hadmits
      cases hadmits

theorem isFirst_unique {t u : Span text} (ht : t.IsFirst s.FitsForward)
    (hu : u.IsFirst s.FitsForward) : t = u := by
  have hstart := ht.start_eq hu
  have h1 := ht.1.longest u hstart.symm hu.1.ne_nil hu.1.exact
  have h2 := hu.1.longest t hstart ht.1.ne_nil ht.1.exact
  exact Span.ext_of_eq hstart (Nat.le_antisymm h2 h1)

/-- The search from the left never takes a slice that does not exist. It finds the first span that fits
and is the longest where it starts, and nothing only if none does. -/
theorem find?_forward (hr : s.rightToLeft = false) (text : List Char) :
    ∃ found, s.find? text = some found ∧
      (∀ token, found = some token ↔ ∃ span : Span text, span.IsFirst s.FitsForward ∧
        span.token = token) ∧
      (found = none ↔ ∀ span : Span text, ¬ s.FitsForward span) := by
  let starts := Text.cuts 0 (Text.byteSize text) text
  let g : Nat → Option Token := fun start => (s.findFrom? text start).join
  have hg : ∀ start, Text.isCut text start = true → s.findFrom? text start = some (g start) := by
    intro start hstart
    obtain ⟨found, hfound, -⟩ := findFrom?_spec (s := s) hstart
    simp only [g, hfound, Option.join_some]
  have hmem : ∀ t : Span text, s.FitsForward t → t.start ∈ starts := fun t hfit =>
    Text.mem_cuts.2 ⟨Nat.zero_le _, Nat.lt_of_lt_of_le (Span.start_lt_stop.2 hfit.ne_nil) t.stop_le,
      Text.isCut_start t⟩
  have hno : ∀ t : Span text, s.FitsForward t → g t.start ≠ none := by
    intro t hfit hnone
    obtain ⟨found, hfound, -, hempty⟩ := findFrom?_spec (s := s) (Text.isCut_start t)
    rw [hg _ (Text.isCut_start t)] at hfound
    cases hfound
    exact hempty hnone t rfl hfit
  refine ⟨starts.findSome? g, ?_, Span.find_iff (fun _ h => h.1) (fun _ _ => isFirst_unique) ?_ ?_⟩
  · rw [find?, if_neg (by rw [hr]; exact Bool.false_ne_true)]
    exact findSomeM?_eq_some fun start hstart => hg start (Text.mem_cuts.1 hstart).2.2
  · intro token hfind
    obtain ⟨start, hstart, htoken, hfirst⟩ := exists_of_findSome? (Text.pairwise_cuts ..) hfind
    have hcut : Text.isCut text start = true := (Text.mem_cuts.1 hstart).2.2
    obtain ⟨found, hfound, hbest, -⟩ := findFrom?_spec (s := s) hcut
    rw [hg start hcut] at hfound
    cases hfound
    obtain ⟨span, rfl, hfit, htoken⟩ := hbest token htoken
    refine ⟨span, ⟨hfit, fun t ht => ?_⟩, htoken⟩
    rcases hfirst t.start (hmem t ht) (hno t ht) with heq | hlt
    · exact Nat.le_of_eq heq.symm
    · exact Nat.le_of_lt hlt
  · intro hfind t hfit
    exact hno t hfit (List.findSome?_eq_none_iff.1 hfind _ (hmem t hfit))

end OperatorTests

/-! ## The search for all cuts at once -/

namespace OperatorSearch

variable {s : OperatorSearch} {text : List Char} {span t : Span text}

theorem laterThan_iff : LaterThan span.front span.back t.front t.back ↔
    t.stop < span.stop ∨ t.stop = span.stop ∧ span.start ≤ t.start := by
  have h1 := Span.stop_le_iff (s := span) (t := t)
  have h2 := Span.stop_le_iff (s := t) (t := span)
  rw [LaterThan, Span.start_le_iff]
  omega

theorem admits_tests (s : OperatorSearch) (front back : List Char) : s.tests.admits front back =
    (s.admits front.reverse && (s.endsOperand front && s.startsOperand back)) := by
  have hleft : s.tests.left front = s.endsOperand front := Machine.occursIn_eq _ _
  have hright : s.tests.right back = s.startsOperand back := Machine.occursIn_eq _ _
  have hpreceded : (!(s.tests.notPrecededBy.any fun c => front.getLast? = some c)) =
      s.admits front.reverse := by
    have hsame : s.tests.notPrecededBy = s.notPrecededBy := rfl
    unfold admits
    rw [hsame, ← List.head?_reverse]
    cases s.notPrecededBy with
    | none => rfl
    | some c =>
      cases front.reverse with
      | nil => rfl
      | cons d before => simp [eq_comm]
  rw [OperatorTests.admits, hleft, hright, hpreceded]

/-- The first match at the end begins no later than a span that a match reaches. -/
theorem reaches_iff (hne : span.inside ≠ []) :
    (s.tests.firstAtEnd (span.front ++ span.inside)).getD span.stop ≤ span.start ↔
      ∃ n, s.atEnd.reach? (span.front ++ span.inside).reverse = some n ∧ span.inside.length ≤ n := by
  have hfirst : s.tests.firstAtEnd (span.front ++ span.inside) =
      (s.atEnd.reach? (span.front ++ span.inside).reverse).map fun n => Text.byteSize
        ((span.front ++ span.inside).take ((span.front ++ span.inside).length - n)) := rfl
  have hlt := Span.start_lt_stop.2 hne
  rw [hfirst]
  cases s.atEnd.reach? (span.front ++ span.inside).reverse with
  | none => simpa using hlt
  | some n =>
    have hle := Text.byteSize_le_iff
      (List.take_prefix ((span.front ++ span.inside).length - n) (span.front ++ span.inside))
      (List.prefix_append span.front span.inside)
    rw [List.length_take, List.length_append] at hle
    simp only [Option.map_some, Option.getD_some, Option.some.injEq, exists_eq_left', Span.start,
      List.length_append, hle]
    omega

theorem fitsBackward_iff :
    s.tests.FitsBackward span ↔ s.Tried span.front span.inside span.back := by
  constructor
  · rintro ⟨hne, hreaches, hexact, hadmits⟩
    rw [admits_tests, Bool.and_eq_true, Bool.and_eq_true] at hadmits
    exact ⟨⟨hne, hexact, hadmits.1, hadmits.2.1, hadmits.2.2⟩, (reaches_iff hne).1 hreaches⟩
  · rintro ⟨⟨hne, hexact, hadmits, hleft, hright⟩, hreaches⟩
    refine ⟨hne, (reaches_iff hne).2 hreaches, hexact, ?_⟩
    rw [admits_tests, hadmits, hleft, hright]
    rfl

theorem longest_iff : s.Longest span.inside span.back ↔ ∀ t : Span text, t.start = span.start →
    t.inside ≠ [] → s.exact.occursIn t.inside = true → t.stop ≤ span.stop := by
  have hs := span.eq_text
  constructor
  · intro hlong t hstart hne hexact
    have hrest := t.from?_start
    rw [hstart, span.from?_start] at hrest
    have hle := hlong t.inside t.back (Option.some.inj hrest) hne hexact
    have hlength := congrArg List.length (Option.some.inj hrest)
    rw [List.length_append, List.length_append] at hlength
    exact Span.stop_le_iff.2 (by omega)
  · intro hlong w back hw hne hexact
    rw [List.append_assoc, hw, ← List.append_assoc] at hs
    have hle := Span.stop_le_iff.1 (hlong ⟨span.front, w, back, hs⟩ rfl hne hexact)
    have hlength := congrArg List.length hw
    rw [List.length_append, List.length_append] at hlength
    exact show w.length ≤ span.inside.length by dsimp only at hle; omega

theorem fitsForward_iff : s.tests.FitsForward span ↔
    s.Fits span.front span.inside span.back ∧ s.Longest span.inside span.back := by
  rw [longest_iff]
  constructor
  · rintro ⟨hne, hexact, hlong, hadmits⟩
    rw [admits_tests, Bool.and_eq_true, Bool.and_eq_true] at hadmits
    exact ⟨⟨hne, hexact, hadmits.1, hadmits.2.1, hadmits.2.2⟩, hlong⟩
  · rintro ⟨⟨hne, hexact, hadmits, hleft, hright⟩, hlong⟩
    refine ⟨hne, hexact, hlong, ?_⟩
    rw [admits_tests, hadmits, hleft, hright]
    rfl

theorem find?_isLast (hr : s.rightToLeft = true) (text : List Char) (token : Token) :
    s.find? text = some token ↔ ∃ span : Span text, span.IsLast s.tests.FitsBackward ∧
      span.token = token := by
  refine (Span.find_iff (fun _ h => h.1) (fun _ _ => Span.IsLast.unique) ?_ ?_).1 token
  · intro token htoken
    obtain ⟨front, w, back, ht, rfl, htried, hlast⟩ := find?_last hr htoken
    let best : Span text := ⟨front, w, back, ht.symm⟩
    refine ⟨best, ⟨fitsBackward_iff.2 htried, fun t hfit => ?_⟩, rfl⟩
    exact laterThan_iff.1 (hlast _ _ _ t.eq_text.symm (fitsBackward_iff.1 hfit))
  · intro hnone t hfit
    exact find?_last_eq_none hr hnone t.eq_text.symm (fitsBackward_iff.1 hfit)

theorem find?_isFirst (hr : s.rightToLeft = false) (text : List Char) (token : Token) :
    s.find? text = some token ↔ ∃ span : Span text, span.IsFirst s.tests.FitsForward ∧
      span.token = token := by
  refine (Span.find_iff (fun _ h => h.1) (fun _ _ => OperatorTests.isFirst_unique) ?_ ?_).1 token
  · intro token htoken
    obtain ⟨front, w, back, ht, rfl, hfits, hlong, hfirst⟩ := find?_first hr htoken
    let best : Span text := ⟨front, w, back, ht.symm⟩
    refine ⟨best, ⟨fitsForward_iff.2 ⟨hfits, hlong⟩, fun t hfit => ?_⟩, rfl⟩
    obtain ⟨htfits, htlong⟩ := fitsForward_iff.1 hfit
    exact Span.start_le_iff.2 (hfirst _ _ _ t.eq_text.symm htfits htlong)
  · intro hnone t hfit
    obtain ⟨htfits, htlong⟩ := fitsForward_iff.1 hfit
    exact find?_first_eq_none hr hnone t.eq_text.symm htlong htfits

/-- The search for all cuts at once finds what the search finds that goes from cut to cut. -/
theorem find?_sliced (s : OperatorSearch) (text : List Char) :
    s.tests.find? text = some (s.find? text) := by
  cases hr : s.rightToLeft with
  | true =>
    obtain ⟨found, hfound, hsome, -⟩ := OperatorTests.find?_backward (s := s.tests) hr text
    rw [hfound]
    exact congrArg some (Option.ext fun token => (hsome token).trans (find?_isLast hr text token).symm)
  | false =>
    obtain ⟨found, hfound, hsome, -⟩ := OperatorTests.find?_forward (s := s.tests) hr text
    rw [hfound]
    exact congrArg some (Option.ext fun token => (hsome token).trans (find?_isFirst hr text token).symm)

end OperatorSearch

end Formula
