import Formula.Proofs.Pattern.Find
import Formula.Proofs.Pattern.Language

/-!
# The leftmost match

The match that the search returns begins no later than any other match (`find?_start_le`).

The threads are ordered by their beginnings (`Ordered`). A choice is only dropped behind one that ends, or
behind one that goes on at the same set, and neither of these began later. So for every beginning that
the search can still reach (`Reaches`), the next step reaches one that is not later.

So the search for the greatest end, with the reversed pattern in the reversed text, finds where the leftmost
match begins (`start_find?`).
-/

set_option autoImplicit false

namespace Formula.Machine

variable {m : Machine} {before after : Option Char} {position n : Nat} {threads : List Thread}
  {best : Option Match} {text : List Char} {c : Char}

/-- Threads that began earlier come first, and none began after the preferred match so far. -/
structure Ordered (position : Nat) (threads : List Thread) (best : Option Match) : Prop where
  pairwise : threads.Pairwise fun t u => t.start ≤ u.start
  le_position : ∀ t ∈ threads, t.start ≤ position
  le_best : ∀ f, best = some f → ∀ t ∈ threads, t.start ≤ f.start

/-- A match that begins at byte `n` can still be returned: it is the preferred one so far, or under way, or
begins later. -/
inductive Reaches (m : Machine) (before : Option Char) (position : Nat) (threads : List Thread)
    (best : Option Match) (text : List Char) (n : Nat) : Prop
  | found {f : Match} : best = some f → f.start = n → Reaches m before position threads best text n
  | underWay {t : Thread} {s r : List Char} : t ∈ threads → t.start = n → text = s ++ r →
      m.Live (m.movesAfter t.set) before s (headOr r none) →
      Reaches m before position threads best text n
  | later {u s r : List Char} : best = none → text = u ++ s ++ r → n = position + Text.byteSize u →
      m.Live (m.beginning (lastOr before u)) (lastOr before u) s (headOr r none) →
      Reaches m before position threads best text n

/-! ## Choices -/

theorem Ordered.pairwise_allowed (h : Ordered position threads best) (m : Machine)
    (before after : Option Char) :
    (m.allowed before after position threads best).Pairwise fun o o' => o.start ≤ o'.start := by
  refine List.Pairwise.filter _ (List.pairwise_append.2 ⟨List.pairwise_flatMap.2 ⟨?_, ?_⟩, ?_, ?_⟩)
  · exact fun t _ => List.pairwise_map.2 (List.pairwise_of_forall fun _ _ => Nat.le_refl _)
  · refine h.pairwise.imp fun hle o ho o' ho' => ?_
    obtain ⟨v, -, rfl⟩ := List.mem_map.1 ho
    obtain ⟨v', -, rfl⟩ := List.mem_map.1 ho'
    exact hle
  · exact List.pairwise_map.2 (List.pairwise_of_forall fun _ _ => Nat.le_refl _)
  · intro o ho o' ho'
    obtain ⟨t, ht, ho⟩ := List.mem_flatMap.1 ho
    obtain ⟨v, -, rfl⟩ := List.mem_map.1 ho
    obtain ⟨v', -, rfl⟩ := List.mem_map.1 ho'
    exact h.le_position t ht

theorem Ordered.start_le {o : Choice} (h : Ordered position threads best)
    (ho : o ∈ m.allowed before after position threads best) :
    o.start ≤ position ∧ ∀ f, best = some f → o.start ≤ f.start := by
  rcases (mem_allowed.1 ho).1 with ⟨t, ht, v, -, rfl⟩ | ⟨hnone, v, -, rfl⟩
  · exact ⟨h.le_position t ht, fun f hf => h.le_best f hf t ht⟩
  · refine ⟨Nat.le_refl _, ?_⟩
    rintro f rfl
    cases hnone

section

variable {live : List Choice} {o : Choice}

/-- The first choice that ends makes the preferred match; those before it go on. -/
theorem bestAfter_of_find? (position : Nat) (best : Option Match)
    (hfirst : (live.find? fun o => o.move.isEnd) = some o) :
    bestAfter position best live = some ⟨o.start, position, o.record position⟩ ∧
      ∃ rest, live = (live.takeWhile fun o => !o.move.isEnd) ++ o :: rest := by
  obtain ⟨hend, front, rest, hlive, hfront⟩ := List.find?_eq_some_iff_append.1 hfirst
  refine ⟨by rw [bestAfter, hfirst], rest, ?_⟩
  rw [hlive, List.takeWhile_append_of_pos hfront, List.takeWhile_cons_of_neg (by simpa using hend),
    List.append_nil]

/-- A choice goes on unless one that began no later ends. -/
theorem bestAfter_or_mem_takeWhile (position : Nat) (best : Option Match)
    (hsorted : live.Pairwise fun o o' => o.start ≤ o'.start) (ho : o ∈ live) :
    (∃ f, bestAfter position best live = some f ∧ f.start ≤ o.start) ∨
      o ∈ live.takeWhile fun o => !o.move.isEnd := by
  cases hfirst : live.find? fun o => o.move.isEnd with
  | none =>
    have hall : ∀ o ∈ live, (!o.move.isEnd) = true := by simpa using hfirst
    rw [List.takeWhile_eq_self_iff.2 hall]
    exact .inr ho
  | some first =>
    obtain ⟨hbest, rest, hlive⟩ := bestAfter_of_find? position best hfirst
    rw [hlive] at hsorted ho
    rcases List.mem_append.1 ho with ho | ho
    · exact .inr ho
    · refine .inl ⟨_, hbest, ?_⟩
      rcases List.mem_cons.1 ho with rfl | ho
      · exact Nat.le_refl _
      · exact (List.pairwise_cons.1 (List.pairwise_append.1 hsorted).2.1).1 o ho

end

/-! ## Threads -/

theorem addThread_sublist (acc : List Thread) (t : Thread) :
    (addThread acc t).Sublist (acc ++ [t]) := by
  rw [addThread]
  split
  · exact List.sublist_append_left ..
  · exact List.Sublist.refl _

theorem foldl_addThread_sublist (ts acc : List Thread) :
    (ts.foldl addThread acc).Sublist (acc ++ ts) := by
  induction ts generalizing acc with
  | nil => exact List.sublist_append_left ..
  | cons t ts ih =>
    refine (ih (addThread acc t)).trans ?_
    have := (addThread_sublist acc t).append (List.Sublist.refl ts)
    rwa [List.append_assoc] at this

/-- Of the threads at one set, the one that is kept began no later. -/
theorem exists_foldl_addThread_le {ts acc : List Thread} {t : Thread}
    (hsorted : (acc ++ ts).Pairwise fun t u => t.start ≤ u.start) (h : t ∈ acc ∨ t ∈ ts) :
    ∃ u ∈ ts.foldl addThread acc, u.set = t.set ∧ u.start ≤ t.start := by
  induction ts generalizing acc t with
  | nil => exact ⟨t, h.resolve_right List.not_mem_nil, rfl, Nat.le_refl _⟩
  | cons v ts ih =>
    have hsorted' : (addThread acc v ++ ts).Pairwise fun t u => t.start ≤ u.start := by
      have hsub := (addThread_sublist acc v).append (List.Sublist.refl ts)
      rw [List.append_assoc] at hsub
      exact hsorted.sublist hsub
    rcases h with h | h
    · exact ih hsorted' (.inl ((exists_addThread acc v).2 t h))
    · rcases List.mem_cons.1 h with rfl | h
      · obtain ⟨u, hu, hset⟩ := (exists_addThread acc t).1
        obtain ⟨w, hw, hwset, hwstart⟩ := ih hsorted' (.inl hu)
        refine ⟨w, hw, hwset.trans hset, Nat.le_trans hwstart ?_⟩
        rcases List.mem_append.1 ((addThread_sublist acc t).subset hu) with hu | hu
        · exact (List.pairwise_append.1 hsorted).2.2 u hu t List.mem_cons_self
        · rw [List.mem_singleton.1 hu]
      · exact ih hsorted' (.inr h)

/-- The threads after a character, before those at one set are joined. -/
def advanced (position : Nat) (c : Char) (live : List Choice) : List Thread :=
  (live.takeWhile fun o => !o.move.isEnd).filterMap fun o =>
    (o.move.consume? c).map fun n => ⟨o.start, o.record position, n⟩

theorem threadsAfter_sublist (position : Nat) (c : Char) (live : List Choice) :
    (threadsAfter position c live).Sublist (advanced position c live) :=
  foldl_addThread_sublist (advanced position c live) []

theorem pairwise_advanced {live : List Choice} (hsorted : live.Pairwise fun o o' => o.start ≤ o'.start) :
    (advanced position c live).Pairwise fun t u => t.start ≤ u.start := by
  refine List.pairwise_filterMap.2 ((hsorted.sublist (List.takeWhile_sublist _)).imp ?_)
  intro o o' hle t ht u hu
  obtain ⟨k, -, rfl⟩ := Option.map_eq_some_iff.1 ht
  obtain ⟨k', -, rfl⟩ := Option.map_eq_some_iff.1 hu
  exact hle

/-- A choice that consumes a character is followed by a thread that began no later, unless one that
began no later ends. -/
theorem bestAfter_or_exists_threadsAfter (position : Nat) (best : Option Match)
    {live : List Choice} {o : Choice} {k : Nat}
    (hsorted : live.Pairwise fun o o' => o.start ≤ o'.start) (ho : o ∈ live)
    (hc : o.move.consume? c = some k) :
    (∃ f, bestAfter position best live = some f ∧ f.start ≤ o.start) ∨
      ∃ t ∈ threadsAfter position c live, t.set = k ∧ t.start ≤ o.start := by
  refine (bestAfter_or_mem_takeWhile position best hsorted ho).imp_right fun hgoes => ?_
  have hsorted' : ([] ++ advanced position c live).Pairwise fun (t u : Thread) => t.start ≤ u.start :=
    pairwise_advanced hsorted
  have hmem : ⟨o.start, o.record position, k⟩ ∈ advanced position c live :=
    List.mem_filterMap.2 ⟨o, hgoes, by rw [hc]; rfl⟩
  exact exists_foldl_addThread_le hsorted' (.inr hmem)

/-! ## The step and the search -/

theorem Ordered.step (h : Ordered position threads best) (m : Machine) (before : Option Char)
    (c : Char) (next : Nat) :
    let live := m.allowed before (some c) position threads best
    Ordered (position + next) (threadsAfter position c live) (bestAfter position best live) := by
  intro live
  have hsorted : live.Pairwise fun o o' => o.start ≤ o'.start := h.pairwise_allowed m before (some c)
  refine ⟨(pairwise_advanced hsorted).sublist (threadsAfter_sublist ..), fun t ht => ?_, fun f hf t ht => ?_⟩
  · obtain ⟨o, ho, -, hstart, -⟩ := mem_threadsAfter ht
    exact hstart ▸ Nat.le_add_right_of_le (h.start_le ho).1
  · cases hfirst : live.find? fun o => o.move.isEnd with
    | none =>
      obtain ⟨o, ho, -, hstart, -⟩ := mem_threadsAfter ht
      rw [bestAfter, hfirst] at hf
      exact hstart ▸ (h.start_le ho).2 f hf
    | some first =>
      obtain ⟨hbest, rest, hlive⟩ := bestAfter_of_find? position best hfirst
      rw [hbest] at hf
      cases hf
      obtain ⟨o, ho, hstart⟩ : ∃ o ∈ live.takeWhile fun o => !o.move.isEnd, t.start = o.start := by
        obtain ⟨o, ho, hadvanced⟩ := List.mem_filterMap.1 ((threadsAfter_sublist ..).subset ht)
        obtain ⟨k, -, rfl⟩ := Option.map_eq_some_iff.1 hadvanced
        exact ⟨o, ho, rfl⟩
      rw [hlive] at hsorted
      exact hstart ▸ (List.pairwise_append.1 hsorted).2.2 o ho first List.mem_cons_self

/-- A run from choices that are all allowed ends here or goes on in a thread, or one that began no later
does. -/
theorem Ordered.step_live (h : Ordered position threads best) {start : Nat} {ms : List Move}
    {s r : List Char} (hlive : m.Live ms before s (headOr r none))
    (hms : ∀ v ∈ ms, v.enabled before (s ++ r).head? = true →
      ∃ o ∈ m.allowed before (s ++ r).head? position threads best, o.move = v ∧ o.start = start) :
    (∃ f, bestAfter position best (m.allowed before (s ++ r).head? position threads best) = some f ∧
      f.start ≤ start) ∨
    ∃ c cs, s ++ r = c :: cs ∧ ∃ k ≤ start, m.Reaches (some c) (position + c.utf8Size)
      (threadsAfter position c (m.allowed before (some c) position threads best))
      (bestAfter position best (m.allowed before (some c) position threads best)) cs k := by
  cases s with
  | nil =>
    obtain ⟨v, hv, hve⟩ := List.any_eq_true.1 (live_nil.1 hlive)
    rw [Bool.and_eq_true, headOr_none] at hve
    obtain ⟨o, ho, rfl, rfl⟩ := hms v hv hve.2
    rcases bestAfter_or_mem_takeWhile position best
      (h.pairwise_allowed m before _) ho with hbest | hgoes
    · exact .inl hbest
    · have := List.mem_takeWhile_imp hgoes
      rw [hve.1] at this
      cases this
  | cons c s =>
    obtain ⟨k, hk, hlive⟩ := live_cons.1 hlive
    obtain ⟨v, hv, hve, hc⟩ := mem_advance.1 hk
    obtain ⟨o, ho, rfl, rfl⟩ := hms v hv hve
    rcases bestAfter_or_exists_threadsAfter position best
      (h.pairwise_allowed m before _) ho hc with hbest | ⟨t, ht, rfl, hle⟩
    · exact .inl hbest
    · exact .inr ⟨c, s ++ r, rfl, t.start, hle, .underWay ht rfl rfl hlive⟩

/-- What can be reached is found here, or something not later can be reached after the next
character. -/
theorem Reaches.step (hreach : m.Reaches before position threads best text n)
    (h : Ordered position threads best) :
    (∃ f, bestAfter position best (m.allowed before text.head? position threads best) = some f ∧
      f.start ≤ n) ∨
    ∃ c cs, text = c :: cs ∧ ∃ k ≤ n, m.Reaches (some c) (position + c.utf8Size)
      (threadsAfter position c (m.allowed before (some c) position threads best))
      (bestAfter position best (m.allowed before (some c) position threads best)) cs k := by
  cases hreach with
  | @found f hbest hstart =>
    left
    cases hfirst : (m.allowed before text.head? position threads best).find? fun o => o.move.isEnd with
    | none => exact ⟨f, by rw [bestAfter, hfirst]; exact hbest, Nat.le_of_eq hstart⟩
    | some first =>
      refine ⟨_, (bestAfter_of_find? position best hfirst).1, ?_⟩
      rw [← hstart]
      exact (h.start_le (List.mem_of_find?_eq_some hfirst)).2 f hbest
  | @underWay t s r ht hstart htext hlive =>
    subst htext hstart
    refine h.step_live hlive fun v hv he => ⟨_, mem_allowed.2 ⟨.inl ⟨t, ht, v, hv, rfl⟩, he⟩, rfl, rfl⟩
  | @later u s r hbest htext hn hlive =>
    subst hn
    cases u with
    | nil =>
      subst htext
      refine h.step_live hlive fun v hv he => ?_
      exact ⟨_, mem_allowed.2 ⟨.inr ⟨Option.isNone_iff_eq_none.2 hbest, v, hv, rfl⟩, he⟩, rfl, rfl⟩
    | cons c u =>
      subst htext
      rw [lastOr_cons] at hlive
      cases hnext : bestAfter position best
          (m.allowed before (c :: u ++ s ++ r).head? position threads best) with
      | none =>
        refine .inr ⟨c, u ++ s ++ r, rfl, _, Nat.le_refl _, .later hnext rfl ?_ hlive⟩
        rw [Text.byteSize_cons, Nat.add_assoc]
      | some f =>
        left
        rw [bestAfter] at hnext
        split at hnext
        · next o ho =>
          cases hnext
          exact ⟨_, rfl, Nat.le_add_right_of_le (h.start_le (List.mem_of_find?_eq_some ho)).1⟩
        · rw [hbest] at hnext
          cases hnext

theorem start_le_of_findFrom {f : Match} (hreach : m.Reaches before position threads best text n)
    (h : Ordered position threads best)
    (hfind : m.findFrom before position threads best text = some f) : f.start ≤ n := by
  induction text generalizing before position threads best n with
  | nil =>
    rw [findFrom_nil] at hfind
    rcases hreach.step h with ⟨g, hg, hle⟩ | ⟨c, cs, htext, -⟩
    · rw [List.head?_nil, hfind] at hg
      cases hg
      exact hle
    · cases htext
  | cons c cs ih =>
    have hordered := h.step m before c c.utf8Size
    rw [findFrom_cons] at hfind
    dsimp only at hfind hordered
    rcases hreach.step h with ⟨g, hg, hle⟩ | ⟨d, ds, htext, k, hk, hnext⟩
    · rw [List.head?_cons] at hg
      split at hfind
      · rw [hg] at hfind
        cases hfind
        exact hle
      · exact Nat.le_trans (ih (.found hg rfl) hordered hfind) hle
    · cases htext
      refine Nat.le_trans ?_ hk
      split at hfind
      · next hstop =>
        rw [Bool.and_eq_true] at hstop
        cases hnext with
        | found hbest hstart =>
          rw [hbest] at hfind
          cases hfind
          exact Nat.le_of_eq hstart
        | underWay ht =>
          rw [List.isEmpty_iff.1 hstop.1] at ht
          cases ht
        | later hbest =>
          rw [hbest] at hfind
          cases hfind
      · exact ih hnext hordered hfind

/-- The match that the search returns begins no later than any other. -/
theorem find?_start_le {p : Pattern} {f : Match} (hfind : (Machine.of p).find? text = some f)
    {u v r : List Char} (htext : text = u ++ v ++ r)
    (hv : p.Accepts (lastOr none u) v (headOr r none)) : f.start ≤ Text.byteSize u := by
  refine start_le_of_findFrom (.later rfl htext (Nat.zero_add _).symm (live_beginning.2 hv)) ?_ hfind
  exact ⟨.nil, by simp, by simp⟩

section

variable {p : Pattern} {u v r : List Char}

theorem accepts_reversed : p.Accepts (lastOr none u) v (headOr r none) ↔
    p.reverse.Accepts (lastOr none r.reverse) v.reverse (headOr u.reverse none) := by
  rw [Pattern.lastOr_reverse, Pattern.headOr_reverse, Pattern.accepts_reverse, List.reverse_reverse]

/-- In the reversed text, what is before a match is after the end that it reaches. -/
theorem exists_reach?_reverse (h : p.Accepts (lastOr none u) v (headOr r none)) :
    ∃ n, (Machine.of p.reverse).reach? (u ++ v ++ r).reverse = some n ∧
      (u ++ v ++ r).length - n ≤ u.length := by
  obtain ⟨n, hn, hle⟩ := le_reach?_of (accepts_reversed.1 h)
  refine ⟨n, by rwa [List.reverse_append, List.reverse_append, ← List.append_assoc], ?_⟩
  simp only [List.length_append, List.length_reverse] at hle ⊢
  omega

/-- In the reversed text, what is after the greatest end is before a match. -/
theorem exists_accepts_of_reach?_reverse {n : Nat}
    (h : (Machine.of p.reverse).reach? text.reverse = some n) :
    ∃ u v r, text = u ++ v ++ r ∧ u = text.take (text.length - n) ∧
      p.Accepts (lastOr none u) v (headOr r none) := by
  obtain ⟨r, v, u, htext, rfl, hmatch⟩ := accepts_of_reach? h
  have htext : text = u.reverse ++ v.reverse ++ r.reverse := by
    rw [← List.reverse_reverse text, htext]
    simp
  refine ⟨u.reverse, v.reverse, r.reverse, htext, ?_, accepts_reversed.2 (by simpa using hmatch)⟩
  rw [htext, List.append_assoc, List.take_left' (by simp; omega)]

end

/-- Reversed, the leftmost match is one with the greatest end. -/
theorem start_find? (p : Pattern) (text : List Char) :
    ((Machine.of p).find? text).map Match.start = ((Machine.of p.reverse).reach? text.reverse).map
      fun n => Text.byteSize (text.take (text.length - n)) := by
  cases hfind : (Machine.of p).find? text with
  | none =>
    cases hreach : (Machine.of p.reverse).reach? text.reverse with
    | none => rfl
    | some n =>
      obtain ⟨u, v, r, htext, -, hmatch⟩ := exists_accepts_of_reach?_reverse hreach
      have hsome := find?_isSome ⟨u, v, r, htext, hmatch⟩
      rw [hfind] at hsome
      cases hsome
  | some f =>
    obtain ⟨u, v, r, htext, hstart, -, hmatch⟩ := find?_sound hfind
    obtain ⟨n, hreach, hle⟩ := exists_reach?_reverse ⟨_, _, hmatch⟩
    rw [← htext] at hreach hle
    obtain ⟨u', v', r', htext', hu', hmatch'⟩ := exists_accepts_of_reach?_reverse hreach
    rw [hreach, Option.map_some, Option.map_some, ← hu']
    refine congrArg some (Nat.le_antisymm (find?_start_le hfind htext' hmatch') ?_)
    have hprefix : u <+: text := ⟨v ++ r, by rw [← List.append_assoc, htext]⟩
    rw [hstart, hu', Text.byteSize_le_iff (List.take_prefix ..) hprefix, List.length_take]
    omega

end Formula.Machine
