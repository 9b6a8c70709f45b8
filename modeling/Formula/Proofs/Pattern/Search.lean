import Formula.Pattern.Search
import Formula.Proofs.Pattern.Match
import Mathlib.Data.List.Infix

/-!
# What the searches find

The searches of a machine that only ask whether there is a match, in terms of what its pattern matches.
`hits_eq` and `occursIn_of` are about whole texts; `le_reach?_of` and `accepts_of_reach?` about the greatest
end of a match, and `lastHit?_eq_some` about the longest text with a match.
-/

set_option autoImplicit false

namespace Formula

namespace Pattern

/-- The pattern matches `s` between the neighbours `b` and `a`. -/
def Accepts (p : Pattern) (b : Option Char) (s : List Char) (a : Option Char) : Prop :=
  ∃ i l, p.Matches b i s a l

/-- The pattern matches a part of the text. -/
def OccursIn (p : Pattern) (text : List Char) : Prop :=
  ∃ u v r, text = u ++ v ++ r ∧ p.Accepts (lastOr none u) v (headOr r none)

end Pattern

namespace Machine

variable {m : Machine} {ms : List Move} {b a : Option Char} {s : List Char}

theorem Run.shift {next : Nat → List Move} {i : Nat} {l : List (Mark × Nat)}
    (h : Run next ms b i s a l) (j : Nat) : ∃ l', Run next ms b j s a l' := by
  induction h generalizing j with
  | stop hv he hb => exact ⟨_, .stop hv he hb⟩
  | step hv hb hc _ ih =>
    obtain ⟨l', h'⟩ := ih (j + Char.utf8Size _)
    exact ⟨_, .step hv hb hc h'⟩

/-- The moves `ms` accept `s` between the neighbours `b` and `a`. -/
def Live (m : Machine) (ms : List Move) (b : Option Char) (s : List Char) (a : Option Char) : Prop :=
  ∃ i l, Run m.movesAfter ms b i s a l

theorem live_nil : m.Live ms b [] a ↔ ends b a ms = true := by
  rw [ends, List.any_eq_true]
  constructor
  · rintro ⟨i, l, h⟩
    cases h with
    | stop hv he hb => exact ⟨_, hv, by rw [he, hb]; rfl⟩
  · rintro ⟨v, hv, h⟩
    rw [Bool.and_eq_true] at h
    exact ⟨0, _, .stop hv h.1 h.2⟩

theorem mem_advance {c : Char} {n : Nat} :
    n ∈ advance b c ms ↔ ∃ v ∈ ms, v.enabled b (some c) = true ∧ v.consume? c = some n := by
  rw [advance, List.mem_eraseDups, List.mem_filterMap]
  refine exists_congr fun v => and_congr_right fun _ => ?_
  split
  · next h => simp [h]
  · next h => simp [h]

theorem live_cons {c : Char} :
    m.Live ms b (c :: s) a ↔ ∃ n ∈ advance b c ms, m.Live (m.movesAfter n) (some c) s a := by
  constructor
  · rintro ⟨i, l, h⟩
    cases h with
    | step hv hb hc hr => exact ⟨_, mem_advance.2 ⟨_, hv, hb, hc⟩, _, _, hr⟩
  · rintro ⟨n, hn, i, l, hr⟩
    obtain ⟨v, hv, hb, hc⟩ := mem_advance.1 hn
    obtain ⟨l', hr'⟩ := hr.shift (0 + c.utf8Size)
    exact ⟨0, _, .step hv hb hc hr'⟩

theorem live_append {A B : List Move} :
    m.Live (A ++ B) b s a ↔ m.Live A b s a ∨ m.Live B b s a := by
  constructor
  · rintro ⟨i, l, h⟩
    exact (run_append.1 h).imp (⟨i, l, ·⟩) (⟨i, l, ·⟩)
  · rintro (⟨i, l, h⟩ | ⟨i, l, h⟩)
    · exact ⟨i, l, run_append.2 (.inl h)⟩
    · exact ⟨i, l, run_append.2 (.inr h)⟩

theorem live_movesAt {b' : Option Char} {underWay : List Nat} :
    m.Live (m.movesAt b' underWay) b s a ↔
      (∃ n ∈ underWay, m.Live (m.movesAfter n) b s a) ∨ m.Live (m.beginning b') b s a := by
  induction underWay with
  | nil => simp [movesAt]
  | cons n ns ih =>
    have h : m.movesAt b' (n :: ns) = m.movesAfter n ++ m.movesAt b' ns := rfl
    rw [h, live_append, ih]
    simp [or_assoc]

/-! ## Whether there is a match -/

/-- Whether one of the matches under way, or one that begins here or later, ends in the text. -/
def finds (m : Machine) : (before : Option Char) → (underWay : List Nat) → List Char → Bool
  | before, underWay, [] => ends before none (m.movesAt before underWay)
  | before, underWay, c :: cs =>
    let moves := m.movesAt before underWay
    ends before (some c) moves || m.finds (some c) (advance before c moves) cs

theorem finds_iff {before : Option Char} {underWay : List Nat} {text : List Char} :
    m.finds before underWay text = true ↔
      (∃ v r, text = v ++ r ∧ m.Live (m.movesAt before underWay) before v (headOr r none)) ∨
      ∃ c u v r, text = c :: u ++ v ++ r ∧ m.Live (m.beginning (lastOr (some c) u))
        (lastOr (some c) u) v (headOr r none) := by
  induction text generalizing before underWay with
  | nil =>
    rw [finds, ← live_nil (m := m)]
    constructor
    · exact fun h => .inl ⟨[], [], rfl, h⟩
    · rintro (⟨v, r, h, hv⟩ | ⟨c, u, v, r, h, -⟩)
      · obtain ⟨rfl, rfl⟩ := List.append_eq_nil_iff.1 h.symm
        exact hv
      · cases h
  | cons c cs ih =>
    rw [finds, Bool.or_eq_true, ih, ← live_nil (m := m)]
    constructor
    · rintro (h | ⟨v, r, rfl, h⟩ | ⟨d, u, v, r, rfl, h⟩)
      · exact .inl ⟨[], c :: cs, rfl, h⟩
      · rcases live_movesAt.1 h with h | h
        · exact .inl ⟨c :: v, r, rfl, live_cons.2 h⟩
        · exact .inr ⟨c, [], v, r, rfl, h⟩
      · exact .inr ⟨c, d :: u, v, r, rfl, by rwa [lastOr_cons]⟩
    · rintro (⟨v, r, h, hv⟩ | ⟨d, u, v, r, h, hv⟩)
      · cases v with
        | nil =>
          rw [List.nil_append] at h
          subst h
          exact .inl hv
        | cons d v =>
          injection h with h1 h2
          subst h1 h2
          exact .inr (.inl ⟨v, r, rfl, live_movesAt.2 (.inl (live_cons.1 hv))⟩)
      · injection h with h1 h2
        subst h1 h2
        cases u with
        | nil => exact .inr (.inl ⟨v, r, rfl, live_movesAt.2 (.inr hv)⟩)
        | cons e u =>
          rw [lastOr_cons] at hv
          exact .inr (.inr ⟨e, u, v, r, rfl, hv⟩)

theorem finds_none_iff {text : List Char} :
    m.finds none [] text = true ↔ ∃ u v r, text = u ++ v ++ r ∧
      m.Live (m.beginning (lastOr none u)) (lastOr none u) v (headOr r none) := by
  rw [finds_iff]
  constructor
  · rintro (⟨v, r, rfl, h⟩ | ⟨c, u, v, r, rfl, h⟩)
    · exact ⟨[], v, r, rfl, h⟩
    · exact ⟨c :: u, v, r, rfl, by rwa [lastOr_cons]⟩
  · rintro ⟨u, v, r, rfl, h⟩
    cases u with
    | nil => exact .inl ⟨v, r, rfl, h⟩
    | cons c u => exact .inr ⟨c, u, v, r, rfl, by rwa [lastOr_cons] at h⟩

theorem hitsFrom_eq {before : Option Char} {underWay : List Nat} {seen : Bool} {text : List Char} :
    m.hitsFrom before underWay seen text =
      text.inits.map fun t => seen || m.finds before underWay t := by
  induction text generalizing before underWay seen with
  | nil => rfl
  | cons c cs ih => simp [hitsFrom, ih, finds, Bool.or_assoc, Function.comp_def]

/-- For every text at the start of a text: whether it contains a match. -/
theorem hits_eq (m : Machine) (text : List Char) : m.hits text = text.inits.map (m.finds none []) := by
  simp [hits, hitsFrom_eq]

theorem getLastD_map_inits {f : List Char → Bool} (text : List Char) :
    (text.inits.map f).getLastD false = f text := by
  rcases List.eq_nil_or_concat text with rfl | ⟨front, c, rfl⟩
  · rfl
  · simp [List.inits_append]

theorem occursIn_eq (m : Machine) (text : List Char) : m.occursIn text = m.finds none [] text := by
  rw [occursIn, hits_eq, getLastD_map_inits]

/-! ## The greatest end -/

theorem advance_nil (b : Option Char) (c : Char) : advance b c [] = [] := rfl

/-- Without moves for a later beginning nothing is under way once nothing was. -/
theorem movesAt_some_nil (h : m.later.isEmpty = true) (c : Char) : m.movesAt (some c) [] = [] :=
  List.isEmpty_iff.1 h

theorem reachFrom_of_later_nil (h : m.later.isEmpty = true) {c : Char} {position : Nat}
    {best : Option Nat} (text : List Char) :
    m.reachFrom (some c) [] position best text = best := by
  cases text with
  | nil => simp [reachFrom, movesAt_some_nil h, ends]
  | cons d text => simp [reachFrom, movesAt_some_nil h, h]

/-- The step of the search, without its shortcut. -/
theorem reachFrom_cons {before : Option Char} {underWay : List Nat} {position : Nat}
    {best : Option Nat} {c : Char} {cs : List Char} :
    m.reachFrom before underWay position best (c :: cs) =
      m.reachFrom (some c) (advance before c (m.movesAt before underWay)) (position + 1)
        (if ends before (some c) (m.movesAt before underWay) then some position else best) cs := by
  rw [reachFrom]
  split
  · next hm =>
    rw [hm, advance_nil]
    split
    · next h => exact (reachFrom_of_later_nil h cs).symm
    · rfl
  · rfl

/-- The search returns at least the best end before it. -/
theorem best_le_reachFrom {before : Option Char} {underWay : List Nat} {position n : Nat}
    {text : List Char} (h : n ≤ position) :
    ∃ k, m.reachFrom before underWay position (some n) text = some k ∧ n ≤ k := by
  induction text generalizing before underWay position n with
  | nil =>
    rw [reachFrom]
    split
    · exact ⟨position, rfl, h⟩
    · exact ⟨n, rfl, Nat.le_refl _⟩
  | cons c cs ih =>
    rw [reachFrom_cons]
    split
    · obtain ⟨k, hk, hle⟩ := ih (Nat.le_succ position)
      exact ⟨k, hk, Nat.le_trans h hle⟩
    · exact ih (Nat.le_succ_of_le h)

/-- The search returns at least the end of every match that it follows. -/
theorem le_reachFrom {before : Option Char} {underWay : List Nat} (position : Nat)
    (best : Option Nat) {u r : List Char}
    (h : m.Live (m.movesAt before underWay) before u (headOr r none)) :
    ∃ k, m.reachFrom before underWay position best (u ++ r) = some k ∧ position + u.length ≤ k := by
  induction u generalizing before underWay position best with
  | nil =>
    rw [live_nil] at h
    cases r with
    | nil => exact ⟨position, if_pos h, Nat.le_refl _⟩
    | cons c r =>
      rw [headOr_cons] at h
      rw [List.nil_append, reachFrom_cons, if_pos h]
      exact best_le_reachFrom (Nat.le_succ position)
  | cons c u ih =>
    rw [List.cons_append, reachFrom_cons]
    obtain ⟨k, hk, hle⟩ := ih (position + 1) _ (live_movesAt.2 (.inl (live_cons.1 h)))
    exact ⟨k, hk, by rw [List.length_cons]; omega⟩

/-- The search returns at least the end of every match that begins later. -/
theorem le_reachFrom_of_beginning {before : Option Char} {underWay : List Nat} (position : Nat)
    (best : Option Nat) {u v r : List Char}
    (h : m.Live (m.beginning (lastOr before u)) (lastOr before u) v (headOr r none)) :
    ∃ k, m.reachFrom before underWay position best (u ++ v ++ r) = some k ∧
      position + (u ++ v).length ≤ k := by
  induction u generalizing before underWay position best with
  | nil => exact le_reachFrom position best (live_movesAt.2 (.inr h))
  | cons c u ih =>
    rw [lastOr_cons] at h
    rw [List.cons_append, List.cons_append, reachFrom_cons]
    obtain ⟨k, hk, hle⟩ := ih (position + 1) _ h
    exact ⟨k, hk, by rw [List.length_cons]; omega⟩

/-- What the search returns is the best end before it, or the end of a match. -/
theorem live_of_reachFrom {before : Option Char} {underWay : List Nat} {position k : Nat}
    {best : Option Nat} {text : List Char}
    (h : m.reachFrom before underWay position best text = some k) : best = some k ∨
      (∃ v r, text = v ++ r ∧ k = position + v.length ∧
        m.Live (m.movesAt before underWay) before v (headOr r none)) ∨
      ∃ c u v r, text = c :: u ++ v ++ r ∧ k = position + (c :: u ++ v).length ∧
        m.Live (m.beginning (lastOr (some c) u)) (lastOr (some c) u) v (headOr r none) := by
  induction text generalizing before underWay position best with
  | nil =>
    rw [reachFrom] at h
    split at h
    · next he => exact .inr (.inl ⟨[], [], rfl, (Option.some.inj h).symm, live_nil.2 he⟩)
    · exact .inl h
  | cons c cs ih =>
    rw [reachFrom_cons] at h
    rcases ih h with hb | ⟨v, r, rfl, rfl, hv⟩ | ⟨d, u, v, r, rfl, rfl, hv⟩
    · split at hb
      · next he =>
        exact .inr (.inl ⟨[], c :: cs, rfl, (Option.some.inj hb).symm, live_nil.2 he⟩)
      · exact .inl hb
    · rcases live_movesAt.1 hv with hv | hv
      · refine .inr (.inl ⟨c :: v, r, rfl, ?_, live_cons.2 hv⟩)
        rw [List.length_cons]
        omega
      · refine .inr (.inr ⟨c, [], v, r, rfl, ?_, hv⟩)
        rw [List.cons_append, List.nil_append, List.length_cons]
        omega
    · refine .inr (.inr ⟨c, d :: u, v, r, rfl, ?_, by rwa [lastOr_cons]⟩)
      simp only [List.cons_append, List.length_cons]
      omega

theorem le_reach? {u v r : List Char}
    (h : m.Live (m.beginning (lastOr none u)) (lastOr none u) v (headOr r none)) :
    ∃ k, m.reach? (u ++ v ++ r) = some k ∧ (u ++ v).length ≤ k := by
  obtain ⟨k, hk, hle⟩ : ∃ k, m.reachFrom none [] 0 none (u ++ v ++ r) = some k ∧
      0 + (u ++ v).length ≤ k := le_reachFrom_of_beginning 0 none h
  exact ⟨k, hk, by omega⟩

theorem live_of_reach? {text : List Char} {k : Nat} (h : m.reach? text = some k) :
    ∃ u v r, text = u ++ v ++ r ∧ k = (u ++ v).length ∧
      m.Live (m.beginning (lastOr none u)) (lastOr none u) v (headOr r none) := by
  rcases live_of_reachFrom h with hb | ⟨v, r, rfl, rfl, hv⟩ | ⟨c, u, v, r, rfl, rfl, hv⟩
  · cases hb
  · exact ⟨[], v, r, rfl, Nat.zero_add _, hv⟩
  · exact ⟨c :: u, v, r, rfl, Nat.zero_add _, by rwa [lastOr_cons]⟩

theorem reach?_le {text : List Char} {k : Nat} (h : m.reach? text = some k) : k ≤ text.length := by
  obtain ⟨u, v, r, rfl, rfl, -⟩ := live_of_reach? h
  exact (List.prefix_append (u ++ v) r).length_le

/-! ## The longest text with a match -/

theorem lastHitFrom_of_later_nil (h : m.later.isEmpty = true) {c : Char} {position : Nat}
    {best : Option Nat} (text : List Char) :
    m.lastHitFrom (some c) [] position best text = best := by
  cases text with
  | nil => simp [lastHitFrom, movesAt_some_nil h, ends]
  | cons d text => simp [lastHitFrom, movesAt_some_nil h, ends, advance, h]

/-- The step of the search, without its shortcut. -/
theorem lastHitFrom_cons {before : Option Char} {underWay : List Nat} {position : Nat}
    {best : Option Nat} {c : Char} {cs : List Char} :
    m.lastHitFrom before underWay position best (c :: cs) =
      if ends before (some c) (m.movesAt before underWay) then some (position + 1 + cs.length)
      else m.lastHitFrom (some c) (advance before c (m.movesAt before underWay)) (position + 1)
        (if 0 < position && ends before none (m.movesAt before underWay) then some position
          else best) cs := by
  rw [lastHitFrom]
  split
  · rfl
  · split
    · next hadv =>
      rw [hadv]
      split
      · next h => rw [lastHitFrom_of_later_nil h]
      · rfl
    · rfl

theorem best_le_lastHitFrom {before : Option Char} {underWay : List Nat} {position n : Nat}
    {text : List Char} (h : n ≤ position) :
    ∃ k, m.lastHitFrom before underWay position (some n) text = some k ∧ n ≤ k := by
  induction text generalizing before underWay position n with
  | nil =>
    rw [lastHitFrom]
    split
    · exact ⟨position, rfl, h⟩
    · exact ⟨n, rfl, Nat.le_refl _⟩
  | cons c cs ih =>
    rw [lastHitFrom_cons]
    split
    · exact ⟨_, rfl, by omega⟩
    · split
      · obtain ⟨k, hk, hle⟩ := ih (Nat.le_succ position)
        exact ⟨k, hk, Nat.le_trans h hle⟩
      · exact ih (Nat.le_succ_of_le h)

theorem le_lastHitFrom {before : Option Char} {underWay : List Nat} (position : Nat)
    (best : Option Nat) {u r : List Char} (hpos : 0 < position + u.length)
    (h : m.finds before underWay u = true) :
    ∃ k, m.lastHitFrom before underWay position best (u ++ r) = some k ∧
      position + u.length ≤ k := by
  induction u generalizing before underWay position best with
  | nil =>
    rw [finds] at h
    have hb : (0 < position && ends before none (m.movesAt before underWay)) = true := by
      simpa [h] using hpos
    cases r with
    | nil => exact ⟨position, if_pos hb, Nat.le_refl _⟩
    | cons c r =>
      rw [List.nil_append, lastHitFrom_cons, if_pos hb]
      split
      · exact ⟨_, rfl, by rw [List.length_nil]; omega⟩
      · exact best_le_lastHitFrom (Nat.le_succ position)
  | cons c u ih =>
    rw [finds, Bool.or_eq_true] at h
    rw [List.cons_append, lastHitFrom_cons]
    split
    · exact ⟨_, rfl, by rw [List.length_cons, List.length_append]; omega⟩
    · next he =>
      obtain ⟨k, hk, hle⟩ := ih (position + 1) _ (by omega) (h.resolve_left he)
      exact ⟨k, hk, by rw [List.length_cons]; omega⟩

theorem finds_of_lastHitFrom {before : Option Char} {underWay : List Nat} {position k : Nat}
    {best : Option Nat} {text : List Char}
    (h : m.lastHitFrom before underWay position best text = some k) :
    best = some k ∨ ∃ u r, text = u ++ r ∧ k = position + u.length ∧ 0 < k ∧
      m.finds before underWay u = true := by
  induction text generalizing before underWay position best with
  | nil =>
    rw [lastHitFrom] at h
    split at h
    · next hb =>
      rw [Bool.and_eq_true, decide_eq_true_eq] at hb
      have hk := Option.some.inj h
      exact .inr ⟨[], [], rfl, hk.symm, hk ▸ hb.1, hb.2⟩
    · exact .inl h
  | cons c cs ih =>
    rw [lastHitFrom_cons] at h
    split at h
    · next he =>
      have hk := Option.some.inj h
      refine .inr ⟨c :: cs, [], (List.append_nil _).symm, ?_, by omega, ?_⟩
      · rw [List.length_cons]; omega
      · rw [finds, he, Bool.true_or]
    · rcases ih h with hb | ⟨u, r, rfl, rfl, hk, hf⟩
      · split at hb
        · next hb' =>
          rw [Bool.and_eq_true, decide_eq_true_eq] at hb'
          have hk := Option.some.inj hb
          exact .inr ⟨[], c :: cs, rfl, hk.symm, hk ▸ hb'.1, hb'.2⟩
        · exact .inl hb
      · refine .inr ⟨c :: u, r, rfl, by rw [List.length_cons]; omega, hk, ?_⟩
        rw [finds, hf, Bool.or_true]

/-- The longest text at the start, not the empty one, that contains a match. -/
theorem lastHit?_eq_some {text : List Char} {k : Nat} :
    m.lastHit? text = some k ↔ 0 < k ∧ k ≤ text.length ∧ m.finds none [] (text.take k) = true ∧
      ∀ j, 0 < j → j ≤ text.length → m.finds none [] (text.take j) = true → j ≤ k := by
  have hgreat : ∀ j, 0 < j → j ≤ text.length → m.finds none [] (text.take j) = true →
      ∃ n, m.lastHit? text = some n ∧ j ≤ n := by
    intro j hj hlen hf
    have hl : (text.take j).length = j := List.length_take_of_le hlen
    obtain ⟨n, hn, hle⟩ := le_lastHitFrom (r := text.drop j) 0 none (by omega) hf
    rw [List.take_append_drop] at hn
    exact ⟨n, hn, by omega⟩
  have hsound : ∀ n, m.lastHit? text = some n → 0 < n ∧ n ≤ text.length ∧
      m.finds none [] (text.take n) = true := by
    intro n hn
    rcases finds_of_lastHitFrom hn with h | ⟨u, r, rfl, hk, hpos, hf⟩
    · cases h
    · rw [Nat.zero_add] at hk
      subst hk
      exact ⟨hpos, by simp, by simpa using hf⟩
  constructor
  · intro h
    obtain ⟨h1, h2, h3⟩ := hsound k h
    refine ⟨h1, h2, h3, fun j hj hlen hf => ?_⟩
    obtain ⟨n, hn, hle⟩ := hgreat j hj hlen hf
    rw [h] at hn
    exact Option.some.inj hn ▸ hle
  · rintro ⟨h1, h2, h3, h4⟩
    obtain ⟨n, hn, hle⟩ := hgreat k h1 h2 h3
    obtain ⟨g1, g2, g3⟩ := hsound n hn
    rw [hn, Nat.le_antisymm (h4 n g1 g2 g3) hle]

/-! ## The searches of a pattern -/

section

variable {p : Pattern} {i : Nat} {l : List (Mark × Nat)}

theorem movesAfter_of (p : Pattern) : (Machine.of p).movesAfter = p.nextOf 0 := by
  funext n
  simp [movesAfter, Machine.of, Pattern.nextOf]

theorem mem_beginning {v : Move} (hb : v.enabled b a = true) :
    v ∈ (Machine.of p).beginning b ↔ v ∈ p.moves 0 := by
  cases b with
  | none => rfl
  | some c =>
    simp only [beginning, Option.isNone_some, Bool.false_eq_true, if_false, Machine.of,
      List.mem_filter, decide_eq_true_eq, and_iff_left_iff_imp]
    intro _ hs
    exact absurd (List.all_eq_true.1 hb _ hs) (by simp [Assertion.holds])

/-- A match that begins at a position is a match of the pattern. -/
theorem run_beginning : Run (Machine.of p).movesAfter ((Machine.of p).beginning b) b i s a l ↔
    p.Matches b i s a l := by
  rw [← Pattern.run_iff_matches p 0 fun n _ _ => congrFun (movesAfter_of p) n]
  constructor
  · intro h
    cases h with
    | stop hv he hb => exact .stop ((mem_beginning hb).1 hv) he hb
    | step hv hb hc hr => exact .step ((mem_beginning hb).1 hv) hb hc hr
  · intro h
    cases h with
    | stop hv he hb => exact .stop ((mem_beginning hb).2 hv) he hb
    | step hv hb hc hr => exact .step ((mem_beginning hb).2 hv) hb hc hr

theorem live_beginning :
    (Machine.of p).Live ((Machine.of p).beginning b) b s a ↔ p.Accepts b s a :=
  exists_congr fun _ => exists_congr fun _ => run_beginning

theorem finds_of {text : List Char} : (Machine.of p).finds none [] text = true ↔ p.OccursIn text := by
  simp only [finds_none_iff, live_beginning, Pattern.OccursIn]

theorem occursIn_of {text : List Char} :
    (Machine.of p).occursIn text = true ↔ p.OccursIn text := by
  rw [occursIn_eq, finds_of]

/-- The greatest end is not before the end of any match. -/
theorem le_reach?_of {u v r : List Char} (h : p.Accepts (lastOr none u) v (headOr r none)) :
    ∃ k, (Machine.of p).reach? (u ++ v ++ r) = some k ∧ (u ++ v).length ≤ k :=
  le_reach? (live_beginning.2 h)

/-- The greatest end is the end of a match. -/
theorem accepts_of_reach? {text : List Char} {k : Nat} (h : (Machine.of p).reach? text = some k) :
    ∃ u v r, text = u ++ v ++ r ∧ k = (u ++ v).length ∧
      p.Accepts (lastOr none u) v (headOr r none) := by
  simpa only [live_beginning] using live_of_reach? h

end

end Machine

end Formula
