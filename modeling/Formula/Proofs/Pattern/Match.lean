import Formula.Pattern.Machine
import Formula.Proofs.Text.Bytes

/-!
# What a pattern matches

`Pattern.Matches p b i s a l`: the pattern matches the text `s`, which starts at byte `i` between the
neighbours `b` and `a`, and passes the marks `l`. The relation follows the pattern. `Machine.Run` is
the same for the moves of a machine, and `run_iff_matches` says that the two agree: the machine of a
pattern accepts what the pattern matches, with the same marks.

The moves of a sequence are those of its first part with the moves of its second part in the place of
those that end (`run_through`); a repetition is its round put in front of itself (`run_plus`).
-/

set_option autoImplicit false

namespace Formula

/-- The neighbour behind a position: the first character of the text from there, or what comes after
it. -/
def headOr (s : List Char) (after : Option Char) : Option Char :=
  s.head?.or after

/-- The neighbour before the end of a text: its last character, or what comes before it. -/
def lastOr (before : Option Char) (s : List Char) : Option Char :=
  s.getLast?.or before

@[simp] theorem headOr_cons (c : Char) (s : List Char) (a : Option Char) :
    headOr (c :: s) a = some c := rfl

theorem lastOr_cons (b : Option Char) (c : Char) (s : List Char) :
    lastOr b (c :: s) = lastOr (some c) s := by
  cases s with
  | nil => rfl
  | cons d s => simp [lastOr, List.getLast?_eq_some_getLast]

@[simp] theorem headOr_none (s : List Char) : headOr s none = s.head? := by
  cases s <;> rfl

theorem exists_lastOr_some (c : Char) (s : List Char) : ∃ d, lastOr (some c) s = some d := by
  rw [lastOr]
  cases s.getLast? with
  | none => exact ⟨c, rfl⟩
  | some d => exact ⟨d, rfl⟩

theorem headOr_append (s t : List Char) (a : Option Char) :
    headOr (s ++ t) a = headOr s (headOr t a) := by
  cases s <;> rfl

theorem lastOr_append (b : Option Char) (s t : List Char) :
    lastOr b (s ++ t) = lastOr (lastOr b s) t := by
  induction s generalizing b with
  | nil => rfl
  | cons c s ih => rw [List.cons_append, lastOr_cons, lastOr_cons, ih]

/-- The marks of a move made at a position. -/
def Move.at (m : Move) (i : Nat) : List (Mark × Nat) :=
  m.marks.map (·, i)

/-- What a pattern matches (module doc). -/
inductive Pattern.Matches : Pattern → Option Char → Nat → List Char → Option Char →
    List (Mark × Nat) → Prop
  | empty {b a : Option Char} {i : Nat} : Matches .empty b i [] a []
  | set {s : CharSet} {c : Char} {b a : Option Char} {i : Nat} : s.contains c →
      Matches (.set s) b i [c] a []
  | assert {x : Assertion} {b a : Option Char} {i : Nat} : x.holds b a →
      Matches (.assert x) b i [] a []
  | mark {m : Mark} {b a : Option Char} {i : Nat} : Matches (.mark m) b i [] a [(m, i)]
  | seq {p q : Pattern} {b a : Option Char} {i : Nat} {s t : List Char} {k l : List (Mark × Nat)} :
      Matches p b i s (headOr t a) k → Matches q (lastOr b s) (i + Text.byteSize s) t a l →
      Matches (.seq p q) b i (s ++ t) a (k ++ l)
  | altLeft {p q : Pattern} {b a : Option Char} {i : Nat} {s : List Char} {l : List (Mark × Nat)} :
      Matches p b i s a l → Matches (.alt p q) b i s a l
  | altRight {p q : Pattern} {b a : Option Char} {i : Nat} {s : List Char} {l : List (Mark × Nat)} :
      Matches q b i s a l → Matches (.alt p q) b i s a l
  | plusOne {greedy : Bool} {p : Pattern} {b a : Option Char} {i : Nat} {s : List Char}
      {l : List (Mark × Nat)} : Matches p b i s a l → Matches (.plus greedy p) b i s a l
  | plusMore {greedy : Bool} {p : Pattern} {b a : Option Char} {i : Nat} {s t : List Char}
      {k l : List (Mark × Nat)} : s ≠ [] → t ≠ [] → Matches p b i s (headOr t a) k →
      Matches (.plus greedy p) (lastOr b s) (i + Text.byteSize s) t a l →
      Matches (.plus greedy p) b i (s ++ t) a (k ++ l)

namespace Machine

/-- What the moves `ms` accept when the moves after a set are those of `next`. -/
inductive Run (next : Nat → List Move) : List Move → Option Char → Nat → List Char →
    Option Char → List (Mark × Nat) → Prop
  | stop {ms : List Move} {v : Move} {b a : Option Char} {i : Nat} : v ∈ ms → v.isEnd →
      v.enabled b a → Run next ms b i [] a (v.at i)
  | step {ms : List Move} {v : Move} {b a : Option Char} {i n : Nat} {c : Char} {s : List Char}
      {l : List (Mark × Nat)} : v ∈ ms → v.enabled b (some c) → v.consume? c = some n →
      Run next (next n) (some c) (i + c.utf8Size) s a l → Run next ms b i (c :: s) a (v.at i ++ l)

/-- The moves consume with sets numbered from `lo` to `hi` only. -/
def Within (lo hi : Nat) (ms : List Move) : Prop :=
  ∀ v ∈ ms, ∀ n s, v.target = some (n, s) → lo ≤ n ∧ n < hi

end Machine

namespace Move

theorem consume?_eq_some {v : Move} {c : Char} {n : Nat} :
    v.consume? c = some n ↔ ∃ s, v.target = some (n, s) ∧ s.contains c := by
  unfold consume?
  split
  · next m s h =>
    split
    · next hs => simp [h, hs, and_assoc]
    · next hs => simp [h, hs]
  · next h => simp [h]

theorem not_isEnd_of_consume {v : Move} {c : Char} {n : Nat} (h : v.consume? c = some n) :
    v.isEnd = false := by
  obtain ⟨s, hs, -⟩ := consume?_eq_some.1 h
  simp [isEnd, hs]

theorem mem_through {Q ms : List Move} {v : Move} :
    v ∈ through Q ms ↔
      (∃ m ∈ ms, m.isEnd ∧ ∃ q ∈ Q, v = m.after q) ∨ (v ∈ ms ∧ v.isEnd = false) := by
  simp only [through, List.mem_flatMap]
  constructor
  · rintro ⟨m, hm, hv⟩
    split at hv
    · next he =>
      obtain ⟨q, hq, rfl⟩ := List.mem_map.1 hv
      exact .inl ⟨m, hm, he, q, hq, rfl⟩
    · next he =>
      rw [List.mem_singleton.1 hv]
      exact .inr ⟨hm, by simpa using he⟩
  · rintro (⟨m, hm, he, q, hq, rfl⟩ | ⟨hm, he⟩)
    · exact ⟨m, hm, by rw [if_pos he]; exact List.mem_map_of_mem hq⟩
    · exact ⟨v, hm, by simp [he]⟩

theorem enabled_after (m q : Move) (b a : Option Char) :
    (m.after q).enabled b a = (m.enabled b a && q.enabled b a) := by
  simp [enabled, after, List.all_append]

theorem at_after (m q : Move) (i : Nat) : (m.after q).at i = m.at i ++ q.at i := by
  simp [Move.at, after]

end Move

namespace Machine

open Move

variable {next nextP : Nat → List Move} {Q ms : List Move} {lo hi : Nat}

theorem Within.mem {lo hi n : Nat} {ms : List Move} (h : Within lo hi ms) {v : Move} (hv : v ∈ ms)
    {c : Char} (hc : v.consume? c = some n) : lo ≤ n ∧ n < hi := by
  obtain ⟨s, hs, -⟩ := consume?_eq_some.1 hc
  exact h v hv n s hs

/-- Runs of moves with others in the place of those that end: a run of the former, then one of the
latter. -/
theorem run_through (hn : ∀ n, lo ≤ n → n < hi → next n = through Q (nextP n))
    (hw : ∀ n, lo ≤ n → n < hi → Within lo hi (nextP n)) (hms : Within lo hi ms)
    {b a : Option Char} {i : Nat} {r : List Char} {l : List (Mark × Nat)} :
    Run next (through Q ms) b i r a l ↔ ∃ s t k m, r = s ++ t ∧ l = k ++ m ∧
      Run nextP ms b i s (headOr t a) k ∧
      Run next Q (lastOr b s) (i + Text.byteSize s) t a m := by
  constructor
  · intro h
    induction r generalizing ms b i l with
    | nil =>
      cases h with
      | stop hv he hb =>
        rcases mem_through.1 hv with ⟨m, hm, hme, q, hq, rfl⟩ | ⟨-, hne⟩
        · rw [enabled_after, Bool.and_eq_true] at hb
          exact ⟨[], [], _, _, rfl, at_after m q i, .stop hm hme hb.1, .stop hq he hb.2⟩
        · simp [hne] at he
    | cons c r ih =>
      cases h with
      | step hv hb hc hr =>
        rcases mem_through.1 hv with ⟨m, hm, hme, q, hq, rfl⟩ | ⟨hm, -⟩
        · rw [enabled_after, Bool.and_eq_true] at hb
          refine ⟨[], c :: r, _, _, rfl, ?_, .stop hm hme hb.1, .step hq hb.2 hc hr⟩
          rw [at_after, List.append_assoc, Text.byteSize, Nat.add_zero]
        · obtain ⟨h1, h2⟩ := hms.mem hm hc
          rw [hn _ h1 h2] at hr
          obtain ⟨s, t, k, m, rfl, rfl, hs, ht⟩ := ih (hw _ h1 h2) hr
          refine ⟨c :: s, t, _, m, rfl, (List.append_assoc ..).symm, .step hm hb hc hs, ?_⟩
          rw [lastOr_cons, Text.byteSize, ← Nat.add_assoc]
          exact ht
  · rintro ⟨s, t, k, m, rfl, rfl, hs, ht⟩
    induction s generalizing ms b i k with
    | nil =>
      cases hs with
      | @stop _ v _ _ _ hv he hb =>
        cases ht with
        | @stop _ q _ _ _ hq hqe hqb =>
          rw [Text.byteSize, Nat.add_zero, List.append_nil, ← at_after]
          exact .stop (mem_through.2 (.inl ⟨v, hv, he, q, hq, rfl⟩)) hqe
            (by rw [enabled_after, Bool.and_eq_true]; exact ⟨hb, hqb⟩)
        | @step _ q _ _ _ n c s l hq hqb hc hr =>
          rw [Text.byteSize, Nat.add_zero, List.nil_append, ← List.append_assoc, ← at_after]
          refine .step (mem_through.2 (.inl ⟨v, hv, he, q, hq, rfl⟩)) ?_ hc hr
          rw [enabled_after, Bool.and_eq_true]
          exact ⟨hb, hqb⟩
    | cons c s ih =>
      cases hs with
      | step hv hb hc hr =>
        obtain ⟨h1, h2⟩ := hms.mem hv hc
        rw [List.append_assoc]
        refine .step (mem_through.2 (.inr ⟨hv, not_isEnd_of_consume hc⟩)) ?_ hc ?_
        · simpa using hb
        · rw [hn _ h1 h2]
          refine ih (hw _ h1 h2) _ hr ?_
          rwa [lastOr_cons, Text.byteSize, ← Nat.add_assoc] at ht

theorem run_append {A B : List Move} {b a : Option Char} {i : Nat} {s : List Char}
    {l : List (Mark × Nat)} :
    Run next (A ++ B) b i s a l ↔ Run next A b i s a l ∨ Run next B b i s a l := by
  constructor
  · intro h
    cases h with
    | stop hv he hb => exact (List.mem_append.1 hv).imp (.stop · he hb) (.stop · he hb)
    | step hv hb hc hr => exact (List.mem_append.1 hv).imp (.step · hb hc hr) (.step · hb hc hr)
  · rintro (h | h)
    · cases h with
      | stop hv he hb => exact .stop (List.mem_append_left _ hv) he hb
      | step hv hb hc hr => exact .step (List.mem_append_left _ hv) hb hc hr
    · cases h with
      | stop hv he hb => exact .stop (List.mem_append_right _ hv) he hb
      | step hv hb hc hr => exact .step (List.mem_append_right _ hv) hb hc hr

/-- A run of one move that ends is over at once. -/
theorem run_end {v : Move} (he : v.isEnd) {b a : Option Char} {i : Nat} {s : List Char}
    {l : List (Mark × Nat)} : Run next [v] b i s a l ↔ v.enabled b a ∧ s = [] ∧ l = v.at i := by
  constructor
  · intro h
    cases h with
    | stop hv _ hb =>
      rw [List.mem_singleton.1 hv] at hb ⊢
      exact ⟨hb, rfl, rfl⟩
    | step hv _ hc =>
      have hnot := not_isEnd_of_consume hc
      rw [List.mem_singleton.1 hv, he] at hnot
      cases hnot
  · rintro ⟨hb, rfl, rfl⟩
    exact .stop (List.mem_singleton_self v) he hb

/-- A run of one move with a set: one character, then the moves after the set. -/
theorem run_set {n : Nat} {x : CharSet} {b a : Option Char} {i : Nat} {s : List Char}
    {l : List (Mark × Nat)} : Run next [⟨[], [], some (n, x)⟩] b i s a l ↔
      ∃ c t, s = c :: t ∧ x.contains c ∧ Run next (next n) (some c) (i + c.utf8Size) t a l := by
  constructor
  · intro h
    cases h with
    | stop hv he =>
      rw [List.mem_singleton.1 hv] at he
      cases he
    | step hv _ hc hr =>
      rw [List.mem_singleton.1 hv] at hc ⊢
      obtain ⟨x', hx', hc⟩ := consume?_eq_some.1 hc
      cases hx'
      exact ⟨_, _, rfl, hc, hr⟩
  · rintro ⟨c, t, rfl, hc, hr⟩
    exact .step (List.mem_singleton_self _) rfl (consume?_eq_some.2 ⟨x, rfl, hc⟩) hr

/-! ## Repetition -/

theorem mem_again {greedy : Bool} {v : Move} :
    v ∈ again greedy ms ↔ v = .stop ∨ (v ∈ ms ∧ v.isEnd = false) := by
  cases greedy <;> simp [again, or_comm]

theorem run_again_nil {greedy : Bool} {b a : Option Char} {i : Nat} {l : List (Mark × Nat)} :
    Run next (again greedy ms) b i [] a l ↔ l = [] := by
  constructor
  · intro h
    cases h with
    | stop hv he =>
      rcases mem_again.1 hv with rfl | ⟨-, hne⟩
      · rfl
      · simp [hne] at he
  · rintro rfl
    exact .stop (mem_again.2 (.inl rfl)) rfl rfl

theorem run_again_cons {greedy : Bool} {b a : Option Char} {i : Nat} {c : Char} {s : List Char}
    {l : List (Mark × Nat)} :
    Run next (again greedy ms) b i (c :: s) a l ↔ Run next ms b i (c :: s) a l := by
  constructor
  · intro h
    cases h with
    | step hv hb hc hr =>
      rcases mem_again.1 hv with rfl | ⟨hm, -⟩
      · simp [Move.stop, consume?] at hc
      · exact .step hm hb hc hr
  · intro h
    cases h with
    | step hv hb hc hr =>
      exact .step (mem_again.2 (.inr ⟨hv, not_isEnd_of_consume hc⟩)) hb hc hr

/-- A run of a repetition: one round, and after a round that consumes, perhaps more. -/
theorem run_plus {greedy : Bool}
    (hn : ∀ n, lo ≤ n → n < hi → next n = through (again greedy ms) (nextP n))
    (hw : ∀ n, lo ≤ n → n < hi → Within lo hi (nextP n)) (hms : Within lo hi ms)
    {b a : Option Char} {i : Nat} {r : List Char} {l : List (Mark × Nat)} :
    Run next ms b i r a l ↔ Run nextP ms b i r a l ∨
      ∃ s t k m, s ≠ [] ∧ t ≠ [] ∧ r = s ++ t ∧ l = k ++ m ∧
        Run nextP ms b i s (headOr t a) k ∧
        Run next ms (lastOr b s) (i + Text.byteSize s) t a m := by
  constructor
  · intro h
    cases h with
    | stop hv he hb => exact .inl (.stop hv he hb)
    | step hv hb hc hr =>
      obtain ⟨h1, h2⟩ := hms.mem hv hc
      rw [hn _ h1 h2] at hr
      obtain ⟨s, t, k, m, rfl, rfl, hs, ht⟩ := (run_through hn hw (hw _ h1 h2)).1 hr
      have hr := Run.step (a := headOr t a) hv hb hc hs
      cases t with
      | nil =>
        rw [run_again_nil.1 ht, List.append_nil, List.append_nil]
        exact .inl hr
      | cons d t =>
        refine .inr ⟨_, d :: t, _, m, List.cons_ne_nil _ s, List.cons_ne_nil d t, rfl,
          (List.append_assoc ..).symm, hr, ?_⟩
        rw [lastOr_cons, Text.byteSize, ← Nat.add_assoc]
        exact run_again_cons.1 ht
  · rintro (h | ⟨s, t, k, m, hs, ht, rfl, rfl, hks, hmt⟩)
    · cases h with
      | stop hv he hb => exact .stop hv he hb
      | step hv hb hc hr =>
        obtain ⟨h1, h2⟩ := hms.mem hv hc
        refine .step hv hb hc ?_
        rw [hn _ h1 h2]
        exact (run_through hn hw (hw _ h1 h2)).2 ⟨_, [], _, [], (List.append_nil _).symm,
          (List.append_nil _).symm, hr, run_again_nil.2 rfl⟩
    · obtain ⟨d, t, rfl⟩ := List.exists_cons_of_ne_nil ht
      cases hks with
      | stop => exact absurd rfl hs
      | step hv hb hc hr =>
        obtain ⟨h1, h2⟩ := hms.mem hv hc
        rw [List.append_assoc]
        refine .step hv hb hc ?_
        rw [hn _ h1 h2]
        refine (run_through hn hw (hw _ h1 h2)).2 ⟨_, _, _, _, rfl, rfl, hr, ?_⟩
        rw [lastOr_cons, Text.byteSize, ← Nat.add_assoc] at hmt
        exact run_again_cons.2 hmt

end Machine

namespace Pattern

open Machine

theorem follows_length (p : Pattern) (base : Nat) : (p.follows base).length = p.sets := by
  induction p generalizing base with
  | seq p q ihp ihq | alt p q ihp ihq => simp [follows, sets, ihp, ihq]
  | plus g p ih => simp [follows, sets, ih]
  | _ => rfl

theorem within_through {lo hi : Nat} {Q ms : List Move} (hq : Within lo hi Q)
    (hms : Within lo hi ms) : Within lo hi (Move.through Q ms) := by
  intro v hv n s hs
  rcases Move.mem_through.1 hv with ⟨m, -, -, q, hmq, rfl⟩ | ⟨hm, -⟩
  · exact hq q hmq n s hs
  · exact hms v hm n s hs

theorem Within.mono {lo hi lo' hi' : Nat} {ms : List Move} (h : Within lo hi ms) (hl : lo' ≤ lo)
    (hh : hi ≤ hi') : Within lo' hi' ms := by
  intro v hv n s hs
  have := h v hv n s hs
  omega

theorem within_moves (p : Pattern) (base : Nat) : Within base (base + p.sets) (p.moves base) := by
  induction p generalizing base with
  | set s =>
    intro v hv n s' hs
    simp only [moves, List.mem_singleton] at hv
    subst hv
    cases hs
    exact ⟨Nat.le_refl _, Nat.lt_succ_self _⟩
  | seq p q ihp ihq =>
    refine within_through ?_ ?_
    · exact Within.mono (ihq _) (Nat.le_add_right ..) (by simp only [sets]; omega)
    · exact Within.mono (ihp _) (Nat.le_refl _) (by simp only [sets]; omega)
  | alt p q ihp ihq =>
    intro v hv n s hs
    have hp := ihp base v
    have hq := ihq (base + p.sets) v
    simp only [sets]
    rcases List.mem_append.1 hv with hv | hv
    · have := hp hv n s hs
      omega
    · have := hq hv n s hs
      omega
  | plus g p ih => exact ih base
  | _ =>
    intro v hv n s hs
    simp only [moves, List.mem_singleton] at hv
    subst hv
    cases hs

theorem within_follows (p : Pattern) (base : Nat) :
    ∀ ms ∈ p.follows base, Within base (base + p.sets) ms := by
  induction p generalizing base with
  | set s =>
    intro ms hms v hv n s' hs
    simp only [follows, List.mem_singleton] at hms
    subst hms
    rw [List.mem_singleton.1 hv] at hs
    cases hs
  | seq p q ihp ihq =>
    intro ms hms
    simp only [follows, List.mem_append, List.mem_map] at hms
    simp only [sets]
    rcases hms with ⟨ms, hms, rfl⟩ | hms
    · exact within_through (Within.mono (within_moves q _) (by omega) (by omega))
        (Within.mono (ihp _ ms hms) (by omega) (by omega))
    · exact Within.mono (ihq _ ms hms) (by omega) (by omega)
  | alt p q ihp ihq =>
    intro ms hms
    simp only [follows, List.mem_append] at hms
    simp only [sets]
    rcases hms with hms | hms
    · exact Within.mono (ihp _ ms hms) (by omega) (by omega)
    · exact Within.mono (ihq _ ms hms) (by omega) (by omega)
  | plus g p ih =>
    intro ms hms
    simp only [follows, List.mem_map] at hms
    obtain ⟨ms, hms, rfl⟩ := hms
    refine within_through ?_ (ih _ ms hms)
    intro v hv n s hs
    rcases mem_again.1 hv with rfl | ⟨hv, -⟩
    · cases hs
    · exact within_moves p base v hv n s hs
  | _ => intro ms hms; cases hms

/-- The moves after each set of a pattern whose sets are numbered from `base`. -/
def nextOf (p : Pattern) (base n : Nat) : List Move :=
  ((p.follows base)[n - base]?).getD []

theorem within_nextOf (p : Pattern) (base n : Nat) :
    Within base (base + p.sets) (p.nextOf base n) := by
  unfold nextOf
  cases h : (p.follows base)[n - base]? with
  | none =>
    intro v hv
    cases hv
  | some ms => exact within_follows p base ms (List.mem_of_getElem? h)

theorem nextOf_seq_left {p q : Pattern} {base n : Nat} (hn : n < base + p.sets) (hb : base ≤ n) :
    (seq p q).nextOf base n = Move.through (q.moves (base + p.sets)) (p.nextOf base n) := by
  have h : n - base < (p.follows base).length := by
    rw [follows_length]
    omega
  simp [nextOf, follows, List.getElem?_append_left, h]

theorem nextOf_seq_right {p q : Pattern} {base n : Nat} (hn : base + p.sets ≤ n) :
    (seq p q).nextOf base n = q.nextOf (base + p.sets) n := by
  have h : (p.follows base).length ≤ n - base := by
    rw [follows_length]
    omega
  rw [nextOf, follows, List.getElem?_append_right (by simpa using h), List.length_map,
    follows_length, Nat.sub_sub, nextOf]

theorem nextOf_alt_left {p q : Pattern} {base n : Nat} (hn : n < base + p.sets) (hb : base ≤ n) :
    (alt p q).nextOf base n = p.nextOf base n := by
  have h : n - base < (p.follows base).length := by
    rw [follows_length]
    omega
  rw [nextOf, follows, List.getElem?_append_left h, nextOf]

theorem nextOf_alt_right {p q : Pattern} {base n : Nat} (hn : base + p.sets ≤ n) :
    (alt p q).nextOf base n = q.nextOf (base + p.sets) n := by
  have h : (p.follows base).length ≤ n - base := by
    rw [follows_length]
    omega
  rw [nextOf, follows, List.getElem?_append_right h, follows_length, Nat.sub_sub, nextOf]

theorem nextOf_plus {greedy : Bool} {p : Pattern} {base n : Nat} :
    (plus greedy p).nextOf base n =
      Move.through (Move.again greedy (p.moves base)) (p.nextOf base n) := by
  rw [nextOf, follows, List.getElem?_map, nextOf]
  cases (p.follows base)[n - base]? <;> rfl

/-! ## The machine of a pattern -/

theorem matches_empty {b a : Option Char} {i : Nat} {s : List Char} {l : List (Mark × Nat)} :
    Matches .empty b i s a l ↔ s = [] ∧ l = [] := by
  constructor
  · rintro ⟨⟩
    exact ⟨rfl, rfl⟩
  · rintro ⟨rfl, rfl⟩
    exact .empty

theorem matches_set {x : CharSet} {b a : Option Char} {i : Nat} {s : List Char}
    {l : List (Mark × Nat)} :
    Matches (.set x) b i s a l ↔ ∃ c, s = [c] ∧ x.contains c ∧ l = [] := by
  constructor
  · intro h
    cases h with
    | set hc => exact ⟨_, rfl, hc, rfl⟩
  · rintro ⟨c, rfl, hc, rfl⟩
    exact .set hc

theorem matches_assert {x : Assertion} {b a : Option Char} {i : Nat} {s : List Char}
    {l : List (Mark × Nat)} : Matches (.assert x) b i s a l ↔ s = [] ∧ l = [] ∧ x.holds b a := by
  constructor
  · intro h
    cases h with
    | assert hx => exact ⟨rfl, rfl, hx⟩
  · rintro ⟨rfl, rfl, hx⟩
    exact .assert hx

theorem matches_mark {m : Mark} {b a : Option Char} {i : Nat} {s : List Char}
    {l : List (Mark × Nat)} : Matches (.mark m) b i s a l ↔ s = [] ∧ l = [(m, i)] := by
  constructor
  · rintro ⟨⟩
    exact ⟨rfl, rfl⟩
  · rintro ⟨rfl, rfl⟩
    exact .mark

theorem matches_seq {p q : Pattern} {b a : Option Char} {i : Nat} {r : List Char}
    {l : List (Mark × Nat)} :
    Matches (seq p q) b i r a l ↔ ∃ s t k m, r = s ++ t ∧ l = k ++ m ∧
      Matches p b i s (headOr t a) k ∧ Matches q (lastOr b s) (i + Text.byteSize s) t a m := by
  constructor
  · rintro (_ | _ | _ | _ | ⟨hs, ht⟩)
    exact ⟨_, _, _, _, rfl, rfl, hs, ht⟩
  · rintro ⟨s, t, k, m, rfl, rfl, hs, ht⟩
    exact .seq hs ht

theorem matches_alt {p q : Pattern} {b a : Option Char} {i : Nat} {s : List Char}
    {l : List (Mark × Nat)} :
    Matches (alt p q) b i s a l ↔ Matches p b i s a l ∨ Matches q b i s a l := by
  constructor
  · intro h
    cases h with
    | altLeft h => exact .inl h
    | altRight h => exact .inr h
  · rintro (h | h)
    · exact .altLeft h
    · exact .altRight h

theorem matches_plus {greedy : Bool} {p : Pattern} {b a : Option Char} {i : Nat} {r : List Char}
    {l : List (Mark × Nat)} :
    Matches (plus greedy p) b i r a l ↔ Matches p b i r a l ∨
      ∃ s t k m, s ≠ [] ∧ t ≠ [] ∧ r = s ++ t ∧ l = k ++ m ∧
        Matches p b i s (headOr t a) k ∧
        Matches (plus greedy p) (lastOr b s) (i + Text.byteSize s) t a m := by
  constructor
  · intro h
    cases h with
    | plusOne h => exact .inl h
    | plusMore hs ht h h' => exact .inr ⟨_, _, _, _, hs, ht, rfl, rfl, h, h'⟩
  · rintro (h | ⟨s, t, k, m, hs, ht, rfl, rfl, h, h'⟩)
    · exact .plusOne h
    · exact .plusMore hs ht h h'

/-- The moves at the start of a repetition accept what it matches, if those of its round do. The induction
is on the text: a round that others follow consumes some of it. -/
theorem run_plus_iff_matches {next : Nat → List Move} {greedy : Bool} {p : Pattern} {base : Nat}
    (hn : ∀ n, base ≤ n → n < base + p.sets →
      next n = Move.through (Move.again greedy (p.moves base)) (p.nextOf base n))
    (hround : ∀ {b a : Option Char} {i : Nat} {s : List Char} {l : List (Mark × Nat)},
      Run (p.nextOf base) (p.moves base) b i s a l ↔ Matches p b i s a l)
    {b a : Option Char} {i : Nat} {s : List Char} {l : List (Mark × Nat)} :
    Run next (p.moves base) b i s a l ↔ Matches (.plus greedy p) b i s a l := by
  induction h : s.length using Nat.strongRecOn generalizing s b i l with
  | ind k ihk =>
    rw [run_plus hn (fun n _ _ => within_nextOf p base n) (within_moves p base), matches_plus, hround]
    refine or_congr_right (exists_congr fun u => exists_congr fun t => exists_congr fun x =>
      exists_congr fun m => and_congr_right fun hu => and_congr_right fun _ =>
        and_congr_right fun hs => and_congr_right fun _ => ?_)
    have ht : t.length < k := by
      rw [← h, hs, List.length_append]
      have := List.length_pos_iff.2 hu
      omega
    rw [hround]
    exact and_congr_right fun _ => ihk t.length ht rfl

/-- The moves at the start of a pattern accept what the pattern matches. -/
theorem run_iff_matches {next : Nat → List Move} (p : Pattern) (base : Nat)
    (hn : ∀ n, base ≤ n → n < base + p.sets → next n = p.nextOf base n) {b a : Option Char}
    {i : Nat} {s : List Char} {l : List (Mark × Nat)} :
    Run next (p.moves base) b i s a l ↔ Matches p b i s a l := by
  induction p generalizing next base b a i s l with
  | empty =>
    rw [moves, run_end rfl, matches_empty]
    exact and_iff_right rfl
  | set x =>
    have hnext : next base = [.stop] := by
      rw [hn base (Nat.le_refl _) (Nat.lt_succ_self _), nextOf, Nat.sub_self]
      rfl
    rw [moves, run_set, matches_set, hnext]
    simp only [run_end (show Move.stop.isEnd from rfl)]
    constructor
    · rintro ⟨c, _, rfl, hc, -, rfl, rfl⟩
      exact ⟨c, rfl, hc, rfl⟩
    · rintro ⟨c, rfl, hc, rfl⟩
      exact ⟨c, [], rfl, hc, rfl, rfl, rfl⟩
  | assert x =>
    rw [moves, run_end rfl, matches_assert]
    simp [Move.enabled, Move.at, and_comm, and_assoc]
  | mark x =>
    rw [moves, run_end rfl, matches_mark]
    exact and_iff_right rfl
  | seq p q ihp ihq =>
    have hp : ∀ n, base ≤ n → n < base + p.sets →
        next n = Move.through (q.moves (base + p.sets)) (p.nextOf base n) := by
      intro n h1 h2
      rw [hn n h1 (by simp only [sets]; omega), nextOf_seq_left h2 h1]
    have hq : ∀ n, base + p.sets ≤ n → n < base + p.sets + q.sets →
        next n = q.nextOf (base + p.sets) n := by
      intro n h1 h2
      rw [hn n (by omega) (by simp only [sets]; omega), nextOf_seq_right h1]
    rw [moves, run_through hp (fun n _ _ => within_nextOf p base n) (within_moves p base),
      matches_seq]
    simp only [ihp base fun _ _ _ => rfl, ihq _ hq]
  | alt p q ihp ihq =>
    have hp : ∀ n, base ≤ n → n < base + p.sets → next n = p.nextOf base n := by
      intro n h1 h2
      rw [hn n h1 (by simp only [sets]; omega), nextOf_alt_left h2 h1]
    have hq : ∀ n, base + p.sets ≤ n → n < base + p.sets + q.sets →
        next n = q.nextOf (base + p.sets) n := by
      intro n h1 h2
      rw [hn n (by omega) (by simp only [sets]; omega), nextOf_alt_right h1]
    rw [moves, run_append, ihp base hp, ihq _ hq, matches_alt]
  | plus greedy p ih =>
    have hp : ∀ n, base ≤ n → n < base + p.sets →
        next n = Move.through (Move.again greedy (p.moves base)) (p.nextOf base n) := by
      intro n h1 h2
      rw [hn n h1 h2, nextOf_plus]
    exact run_plus_iff_matches hp (ih base fun _ _ _ => rfl)

/-- A match may stand at any byte; only its marks change. -/
theorem Matches.shift {p : Pattern} {b a : Option Char} {i : Nat} {s : List Char}
    {l : List (Mark × Nat)} (h : Matches p b i s a l) (j : Nat) : ∃ l', Matches p b j s a l' := by
  induction h generalizing j with
  | empty => exact ⟨_, .empty⟩
  | set hs => exact ⟨_, .set hs⟩
  | assert hx => exact ⟨_, .assert hx⟩
  | mark => exact ⟨_, .mark⟩
  | seq _ _ ihp ihq =>
    obtain ⟨k, hk⟩ := ihp j
    obtain ⟨l, hl⟩ := ihq (j + Text.byteSize _)
    exact ⟨_, .seq hk hl⟩
  | altLeft _ ih =>
    obtain ⟨l, hl⟩ := ih j
    exact ⟨l, .altLeft hl⟩
  | altRight _ ih =>
    obtain ⟨l, hl⟩ := ih j
    exact ⟨l, .altRight hl⟩
  | plusOne _ ih =>
    obtain ⟨l, hl⟩ := ih j
    exact ⟨l, .plusOne hl⟩
  | plusMore hs ht _ _ ihp ihq =>
    obtain ⟨k, hk⟩ := ihp j
    obtain ⟨l, hl⟩ := ihq (j + Text.byteSize _)
    exact ⟨_, .plusMore hs ht hk hl⟩

end Pattern

end Formula
