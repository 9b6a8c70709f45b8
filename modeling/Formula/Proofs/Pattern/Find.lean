import Formula.Proofs.Pattern.Search
import Mathlib.Data.List.TakeWhile

/-!
# What the search for a match finds

`find?_sound`: a match that the search returns is one of the pattern, with the marks that it passed.
`find?_isSome`: it returns one whenever the pattern matches a part of the text.

The invariant of the search is `Continues`: every thread stands for a match that has begun, so that
whatever its next moves accept makes it a match of the pattern.
-/

set_option autoImplicit false

namespace Formula.Machine

variable {m : Machine} {ms : List Move} {b a : Option Char} {s : List Char}

/-- A match that began at byte `start` of the text `pre` and passed `marks`, latest first, goes on with
the moves `ms` after it. -/
def Continues (m : Machine) (pre : List Char) (start : Nat) (marks : List (Mark × Nat))
    (ms : List Move) : Prop :=
  ∃ u v, pre = u ++ v ∧ start = Text.byteSize u ∧
    ∀ s a l, Run m.movesAfter ms (lastOr none pre) (Text.byteSize pre) s a l →
      Run m.movesAfter (m.beginning (lastOr none u)) (lastOr none u) start (v ++ s) a
        (marks.reverse ++ l)

/-- A match of the machine in a text, with the marks it passes. -/
def IsMatch (m : Machine) (text : List Char) (found : Match) : Prop :=
  ∃ u v r, text = u ++ v ++ r ∧ found.start = Text.byteSize u ∧
    found.stop = Text.byteSize (u ++ v) ∧
    Run m.movesAfter (m.beginning (lastOr none u)) (lastOr none u) found.start v (headOr r none)
      found.marks.reverse

theorem Run.mono {next : Nat → List Move} {ms' : List Move} {i : Nat} {l : List (Mark × Nat)}
    (hsub : ∀ v ∈ ms, v ∈ ms') (h : Run next ms b i s a l) : Run next ms' b i s a l := by
  cases h with
  | stop hv he hb => exact .stop (hsub _ hv) he hb
  | step hv hb hc hr => exact .step (hsub _ hv) hb hc hr

theorem Continues.mono {pre : List Char} {start : Nat} {marks : List (Mark × Nat)}
    {ms' : List Move} (h : m.Continues pre start marks ms) (hsub : ∀ v ∈ ms', v ∈ ms) :
    m.Continues pre start marks ms' := by
  obtain ⟨u, v, hp, hs, hr⟩ := h
  exact ⟨u, v, hp, hs, fun s a l hrun => hr s a l (hrun.mono hsub)⟩

/-- A match that begins at the end of `pre`. -/
theorem continues_beginning (m : Machine) (pre : List Char) :
    m.Continues pre (Text.byteSize pre) [] (m.beginning (lastOr none pre)) :=
  ⟨pre, [], (List.append_nil _).symm, rfl, fun _ _ _ h => h⟩

section

variable {pre : List Char} {o : Choice}

theorem record_reverse (o : Choice) (i : Nat) :
    (o.record i).reverse = o.marks.reverse ++ o.move.at i := by
  simp [Choice.record, Move.at]

/-- A choice that ends makes a match. -/
theorem Continues.stop (h : m.Continues pre o.start o.marks [o.move]) (he : o.move.isEnd = true)
    (r : List Char) (hb : o.move.enabled (lastOr none pre) r.head? = true) :
    m.IsMatch (pre ++ r) ⟨o.start, Text.byteSize pre, o.record (Text.byteSize pre)⟩ := by
  obtain ⟨u, v, rfl, hs, hr⟩ := h
  refine ⟨u, v, r, rfl, hs, rfl, ?_⟩
  have := hr [] (headOr r none) _ (.stop (List.mem_singleton_self _) he (headOr_none r ▸ hb))
  rw [List.append_nil] at this
  rw [record_reverse]
  exact this

/-- A choice that consumes a character goes on after it. -/
theorem Continues.step (h : m.Continues pre o.start o.marks [o.move]) {c : Char} {n : Nat}
    (hb : o.move.enabled (lastOr none pre) (some c) = true) (hc : o.move.consume? c = some n) :
    m.Continues (pre ++ [c]) o.start (o.record (Text.byteSize pre)) (m.movesAfter n) := by
  obtain ⟨u, v, rfl, hs, hr⟩ := h
  refine ⟨u, v ++ [c], List.append_assoc .., hs, fun s a l hrun => ?_⟩
  rw [Text.byteSize_append, lastOr_append] at hrun
  rw [record_reverse, List.append_assoc, List.append_assoc]
  exact hr (c :: s) a _ (.step (List.mem_singleton_self _) hb hc hrun)

end

/-! ## Threads -/

theorem mem_foldl_addThread {ts acc : List Thread} {t : Thread} (h : t ∈ ts.foldl addThread acc) :
    t ∈ acc ∨ t ∈ ts := by
  induction ts generalizing acc with
  | nil => exact .inl h
  | cons u ts ih =>
    rcases ih h with h | h
    · rw [addThread] at h
      split at h
      · exact .inl h
      · rcases List.mem_append.1 h with h | h
        · exact .inl h
        · exact .inr (List.mem_singleton.1 h ▸ List.mem_cons_self)
    · exact .inr (List.mem_cons_of_mem _ h)

theorem exists_addThread (acc : List Thread) (t : Thread) :
    (∃ u ∈ addThread acc t, u.set = t.set) ∧ ∀ u ∈ acc, u ∈ addThread acc t := by
  rw [addThread]
  split
  · next h =>
    obtain ⟨u, hu, hs⟩ := List.any_eq_true.1 h
    exact ⟨⟨u, hu, by simpa using hs⟩, fun u hu => hu⟩
  · exact ⟨⟨t, by simp, rfl⟩, fun u hu => List.mem_append_left _ hu⟩

/-- Of the threads at one set, one is kept. -/
theorem exists_foldl_addThread {ts acc : List Thread} {t : Thread} (h : t ∈ acc ∨ t ∈ ts) :
    ∃ u ∈ ts.foldl addThread acc, u.set = t.set := by
  induction ts generalizing acc t with
  | nil => exact ⟨t, h.resolve_right List.not_mem_nil, rfl⟩
  | cons v ts ih =>
    obtain ⟨⟨u, hu, hus⟩, hsub⟩ := exists_addThread acc v
    rcases h with h | h
    · exact ih (.inl (hsub t h))
    · rcases List.mem_cons.1 h with rfl | h
      · obtain ⟨w, hw, hws⟩ := ih (.inl hu)
        exact ⟨w, hw, hws.trans hus⟩
      · exact ih (.inr h)

theorem mem_choices {threads : List Thread} {position : Nat} {begun : List Move} {o : Choice} :
    o ∈ m.choices threads position begun ↔
      (∃ t ∈ threads, ∃ v ∈ m.movesAfter t.set, o = ⟨t.start, t.marks, v⟩) ∨
      ∃ v ∈ begun, o = ⟨position, [], v⟩ := by
  simp [choices, eq_comm]

/-- Every choice goes on a match when every thread does. -/
theorem continues_choice {pre : List Char} {threads : List Thread} {begun : List Move} {o : Choice}
    (hts : ∀ t ∈ threads, m.Continues pre t.start t.marks (m.movesAfter t.set))
    (hbegun : ∀ v ∈ begun, v ∈ m.beginning (lastOr none pre))
    (ho : o ∈ m.choices threads (Text.byteSize pre) begun) :
    m.Continues pre o.start o.marks [o.move] := by
  rcases mem_choices.1 ho with ⟨t, ht, v, hv, rfl⟩ | ⟨v, hv, rfl⟩
  · exact (hts t ht).mono fun w hw => List.mem_singleton.1 hw ▸ hv
  · exact (continues_beginning m pre).mono fun w hw => List.mem_singleton.1 hw ▸ hbegun v hv

/-! ## Soundness -/

/-- The choices that the guards allow at a position. -/
def allowed (m : Machine) (before after : Option Char) (position : Nat) (threads : List Thread)
    (best : Option Match) : List Choice :=
  (m.choices threads position (if best.isNone then m.beginning before else [])).filter fun o =>
    o.move.enabled before after

/-- The preferred match so far, after the choices at a position. -/
def bestAfter (position : Nat) (best : Option Match) (live : List Choice) : Option Match :=
  match live.find? fun o => o.move.isEnd with
  | some o => some ⟨o.start, position, o.record position⟩
  | none => best

/-- The threads after consuming a character: of the choices preferred to the first end. -/
def threadsAfter (position : Nat) (c : Char) (live : List Choice) : List Thread :=
  ((live.takeWhile fun o => !o.move.isEnd).filterMap fun o =>
    (o.move.consume? c).map fun n => (⟨o.start, o.record position, n⟩ : Thread)).foldl addThread []

theorem findFrom_nil {before : Option Char} {position : Nat} {threads : List Thread}
    {best : Option Match} :
    m.findFrom before position threads best [] =
      bestAfter position best (m.allowed before none position threads best) := by
  rw [findFrom]
  rfl

theorem findFrom_cons {before : Option Char} {position : Nat} {threads : List Thread}
    {best : Option Match} {c : Char} {cs : List Char} :
    m.findFrom before position threads best (c :: cs) =
      let live := m.allowed before (some c) position threads best
      let best := bestAfter position best live
      let threads := threadsAfter position c live
      if threads.isEmpty && (best.isSome || m.later.isEmpty) then best
      else m.findFrom (some c) (position + c.utf8Size) threads best cs := by
  rw [findFrom]
  rfl

theorem mem_allowed {before after : Option Char} {position : Nat} {threads : List Thread}
    {best : Option Match} {o : Choice} :
    o ∈ m.allowed before after position threads best ↔
      ((∃ t ∈ threads, ∃ v ∈ m.movesAfter t.set, o = ⟨t.start, t.marks, v⟩) ∨
        (best.isNone = true ∧ ∃ v ∈ m.beginning before, o = ⟨position, [], v⟩)) ∧
      o.move.enabled before after = true := by
  rw [allowed, List.mem_filter, mem_choices]
  cases best <;> simp

theorem mem_threadsAfter {position : Nat} {c : Char} {live : List Choice} {t : Thread}
    (h : t ∈ threadsAfter position c live) :
    ∃ o ∈ live, o.move.consume? c = some t.set ∧ t.start = o.start ∧
      t.marks = o.record position := by
  have h := (mem_foldl_addThread h).resolve_left List.not_mem_nil
  obtain ⟨o, ho, ht⟩ := List.mem_filterMap.1 h
  obtain ⟨n, hn, rfl⟩ := Option.map_eq_some_iff.1 ht
  exact ⟨o, (List.takeWhile_prefix _).subset ho, hn, rfl, rfl⟩

section

variable {pre text : List Char} {threads : List Thread} {best : Option Match}

theorem continues_allowed {after : Option Char}
    (hts : ∀ t ∈ threads, m.Continues pre t.start t.marks (m.movesAfter t.set)) {o : Choice}
    (ho : o ∈ m.allowed (lastOr none pre) after (Text.byteSize pre) threads best) :
    m.Continues pre o.start o.marks [o.move] := by
  have hmem : o ∈ m.choices threads (Text.byteSize pre) (m.beginning (lastOr none pre)) := by
    rw [mem_choices]
    exact (mem_allowed.1 ho).1.imp id (·.2)
  exact continues_choice hts (fun _ h => h) hmem

theorem isMatch_bestAfter (hts : ∀ t ∈ threads, m.Continues pre t.start t.marks (m.movesAfter t.set))
    (hbest : ∀ f, best = some f → m.IsMatch (pre ++ text) f) {f : Match}
    (h : bestAfter (Text.byteSize pre) best
      (m.allowed (lastOr none pre) text.head? (Text.byteSize pre) threads best) = some f) :
    m.IsMatch (pre ++ text) f := by
  rw [bestAfter] at h
  split at h
  · next o ho =>
    have hmem := List.mem_of_find?_eq_some ho
    have he : o.move.isEnd = true := by simpa using List.find?_some ho
    rw [← Option.some.inj h]
    exact (continues_allowed hts hmem).stop he text (mem_allowed.1 hmem).2
  · exact hbest f h

theorem continues_threadsAfter {c : Char}
    (hts : ∀ t ∈ threads, m.Continues pre t.start t.marks (m.movesAfter t.set)) {t : Thread}
    (ht : t ∈ threadsAfter (Text.byteSize pre) c
      (m.allowed (lastOr none pre) (some c) (Text.byteSize pre) threads best)) :
    m.Continues (pre ++ [c]) t.start t.marks (m.movesAfter t.set) := by
  obtain ⟨o, ho, hn, hs, hm⟩ := mem_threadsAfter ht
  rw [hs, hm]
  exact (continues_allowed hts ho).step (mem_allowed.1 ho).2 hn

theorem isMatch_findFrom
    (hts : ∀ t ∈ threads, m.Continues pre t.start t.marks (m.movesAfter t.set))
    (hbest : ∀ f, best = some f → m.IsMatch (pre ++ text) f) {f : Match}
    (h : m.findFrom (lastOr none pre) (Text.byteSize pre) threads best text = some f) :
    m.IsMatch (pre ++ text) f := by
  induction text generalizing pre threads best with
  | nil => exact isMatch_bestAfter hts hbest (by rwa [findFrom_nil] at h)
  | cons c cs ih =>
    rw [findFrom_cons] at h
    dsimp only at h
    split at h
    · exact isMatch_bestAfter hts hbest h
    · have hp : pre ++ c :: cs = (pre ++ [c]) ++ cs := by simp
      have hb : lastOr none (pre ++ [c]) = some c := by rw [lastOr_append]; rfl
      have hi : Text.byteSize (pre ++ [c]) = Text.byteSize pre + c.utf8Size := by
        rw [Text.byteSize_append]; rfl
      have hts' : ∀ t ∈ threadsAfter (Text.byteSize pre) c
          (m.allowed (lastOr none pre) (some c) (Text.byteSize pre) threads best),
          m.Continues (pre ++ [c]) t.start t.marks (m.movesAfter t.set) :=
        fun t ht => continues_threadsAfter hts ht
      rw [hp]
      refine ih hts' (fun f hf => hp ▸ isMatch_bestAfter hts hbest hf) ?_
      rw [hb, hi]
      exact h

end

/-- What the search for a match returns is a match of the pattern, with the marks it passes. -/
theorem find?_sound {p : Pattern} {text : List Char} {f : Match}
    (h : (Machine.of p).find? text = some f) :
    ∃ u v r, text = u ++ v ++ r ∧ f.start = Text.byteSize u ∧ f.stop = Text.byteSize (u ++ v) ∧
      p.Matches (lastOr none u) (Text.byteSize u) v (headOr r none) f.marks.reverse := by
  obtain ⟨u, v, r, ht, hs, he, hr⟩ :=
    @isMatch_findFrom _ [] text [] none (by simp) (by simp) f h
  rw [run_beginning, hs] at hr
  exact ⟨u, v, r, ht, hs, he, hr⟩

/-! ## Completeness -/

theorem isSome_bestAfter {position : Nat} {best : Option Match} {live : List Choice}
    (h : best.isSome = true ∨ ∃ o ∈ live, o.move.isEnd = true) :
    (bestAfter position best live).isSome = true := by
  rw [bestAfter]
  split
  · rfl
  · next hn =>
    refine h.resolve_right ?_
    rintro ⟨o, ho, he⟩
    exact absurd he (List.find?_eq_none.1 hn o ho)

theorem exists_threadsAfter {position n : Nat} {c : Char} {live : List Choice}
    (hne : ∀ o ∈ live, o.move.isEnd = false) {o : Choice} (ho : o ∈ live)
    (hc : o.move.consume? c = some n) :
    ∃ t ∈ threadsAfter position c live, t.set = n := by
  have hall : (live.takeWhile fun o => !o.move.isEnd) = live :=
    List.takeWhile_eq_self_iff.2 fun o ho => by simp [hne o ho]
  refine exists_foldl_addThread (t := ⟨o.start, o.record position, n⟩) (.inr ?_)
  rw [hall]
  exact List.mem_filterMap.2 ⟨o, ho, by rw [hc]; rfl⟩

/-- There is something left to find: a match so far, one under way, or one that begins later. -/
def Finds (m : Machine) (before : Option Char) (threads : List Thread) (best : Option Match)
    (text : List Char) : Prop :=
  best.isSome = true ∨
    (∃ t ∈ threads, ∃ s r, text = s ++ r ∧ m.Live (m.movesAfter t.set) before s (headOr r none)) ∨
    ∃ u s r, text = u ++ s ++ r ∧
      m.Live (m.beginning (lastOr before u)) (lastOr before u) s (headOr r none)

/-- A live run from choices that are all allowed and do not end goes on as a thread. -/
theorem finds_of_live {before : Option Char} {position : Nat} {threads : List Thread}
    {best : Option Match} {ms : List Move} {s r : List Char}
    (hne : ∀ o ∈ m.allowed before (s ++ r).head? position threads best, o.move.isEnd = false)
    (hlive : m.Live ms before s (headOr r none))
    (hms : ∀ v ∈ ms, v.enabled before (s ++ r).head? = true →
      ∃ o ∈ m.allowed before (s ++ r).head? position threads best, o.move = v) :
    ∃ c cs, s ++ r = c :: cs ∧ m.Finds (some c)
      (threadsAfter position c (m.allowed before (some c) position threads best)) none cs := by
  cases s with
  | nil =>
    obtain ⟨v, hv, hve⟩ := List.any_eq_true.1 (live_nil.1 hlive)
    rw [Bool.and_eq_true, headOr_none] at hve
    obtain ⟨o, ho, rfl⟩ := hms v hv hve.2
    exact absurd hve.1 (by simp [hne o ho])
  | cons c s =>
    obtain ⟨n, hn, hlive⟩ := live_cons.1 hlive
    obtain ⟨v, hv, hve, hc⟩ := mem_advance.1 hn
    obtain ⟨o, ho, rfl⟩ := hms v hv hve
    obtain ⟨t, ht, rfl⟩ := exists_threadsAfter hne ho hc
    exact ⟨c, s ++ r, rfl, .inr (.inl ⟨t, ht, s, r, rfl, hlive⟩)⟩

/-- What is left to find ends at this position, or is left after the next character. -/
theorem Finds.step {before : Option Char} (position : Nat) {threads : List Thread}
    {best : Option Match} {text : List Char} (h : m.Finds before threads best text) :
    (bestAfter position best (m.allowed before text.head? position threads best)).isSome = true ∨
    ∃ c cs, text = c :: cs ∧ m.Finds (some c)
      (threadsAfter position c (m.allowed before (some c) position threads best)) none cs := by
  by_cases hb : (bestAfter position best
      (m.allowed before text.head? position threads best)).isSome = true
  · exact .inl hb
  · have hnone : best.isNone = true := by
      cases hbest : best with
      | none => rfl
      | some f => exact absurd (isSome_bestAfter (.inl (by rw [hbest]; rfl))) hb
    have hne : ∀ o ∈ m.allowed before text.head? position threads best, o.move.isEnd = false := by
      intro o ho
      by_contra he
      exact hb (isSome_bestAfter (.inr ⟨o, ho, by simpa using he⟩))
    rcases h with h | ⟨t, ht, s, r, rfl, hlive⟩ | ⟨u, s, r, hs, hlive⟩
    · rw [Option.isNone_iff_eq_none] at hnone
      simp [hnone] at h
    · refine .inr (finds_of_live hne hlive fun v hv he => ?_)
      exact ⟨_, mem_allowed.2 ⟨.inl ⟨t, ht, v, hv, rfl⟩, he⟩, rfl⟩
    · cases u with
      | nil =>
        subst hs
        refine .inr (finds_of_live hne hlive fun v hv he => ?_)
        exact ⟨_, mem_allowed.2 ⟨.inr ⟨hnone, v, hv, rfl⟩, he⟩, rfl⟩
      | cons c u =>
        rw [lastOr_cons] at hlive
        exact .inr ⟨c, u ++ s ++ r, hs, .inr (.inr ⟨u, s, r, rfl, hlive⟩)⟩

theorem Finds.mono {before : Option Char} {threads : List Thread} {best : Option Match}
    {text : List Char} (h : m.Finds before threads none text) : m.Finds before threads best text := by
  rcases h with h | h
  · cases h
  · exact .inr h

theorem isSome_findFrom {before : Option Char} {position : Nat} {threads : List Thread}
    {best : Option Match} {text : List Char} (h : m.Finds before threads best text) :
    (m.findFrom before position threads best text).isSome = true := by
  induction text generalizing before position threads best with
  | nil =>
    rw [findFrom_nil]
    rcases h.step position with h | ⟨c, cs, h, -⟩
    · exact h
    · cases h
  | cons c cs ih =>
    rw [findFrom_cons]
    dsimp only
    rcases h.step position with hb | ⟨d, ds, hd, hf⟩
    · split
      · exact hb
      · exact ih (.inl hb)
    · cases hd
      split
      · next hstop =>
        rw [Bool.and_eq_true, Bool.or_eq_true] at hstop
        refine hstop.2.resolve_right fun hl => ?_
        have hts := List.isEmpty_iff.1 hstop.1
        have hlater : ∀ d s a, ¬ m.Live (m.beginning (some d)) (some d) s a := by
          rintro d s a ⟨i, l, hr⟩
          rw [show m.beginning (some d) = [] from List.isEmpty_iff.1 hl] at hr
          cases hr with
          | stop hv => cases hv
          | step hv => cases hv
        rcases hf with hf | ⟨t, ht, -⟩ | ⟨u, s, r, -, hlive⟩
        · cases hf
        · rw [hts] at ht
          cases ht
        · obtain ⟨d, hd⟩ := exists_lastOr_some c u
          exact hlater d s _ (hd ▸ hlive)
      · exact ih hf.mono

/-- The search returns a match when the pattern matches a part of the text. -/
theorem find?_isSome {p : Pattern} {text : List Char} (h : p.OccursIn text) :
    ((Machine.of p).find? text).isSome = true := by
  refine isSome_findFrom (.inr (.inr ?_))
  obtain ⟨u, v, r, ht, hv⟩ := h
  exact ⟨u, v, r, ht, live_beginning.2 hv⟩

end Formula.Machine
