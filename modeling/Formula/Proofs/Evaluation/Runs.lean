import Formula.Rewrite.Run

/-!
# Runs of rewrites

`SettlesIn same step n a s b t`: the run of rewrites from `a` in the state `s` ends at `b` in the state
`t` after exactly `n` rewrites. `settle_eq_ok_iff` ties it to runs with a limit.

What every rewrite keeps holds at the end of a run (`settle_invariant`), and where rewrites always give
something else a run ends only where there is none (`SettlesIn.final`).

`RewritesIn same step n a s b t`: the first `n` rewrites from `a` in the state `s` lead to `b` in the
state `t`, wherever the run ends. A run that gives up has made as many as its limit, and the state it leaves
is that of one rewrite more (`rewritesIn_of_settle_error`). The values of a run, watched one by one, tell
its result (`tells_trace`).
-/

set_option autoImplicit false

namespace Formula

section
variable {σ α : Type} {same : α → α → Bool} {step : α → σ → Option (α × σ)}

/-- A run that settles after a number of rewrites (module doc). A rewrite to an equal value ends it, and
only what that rewrite did to the state stays. -/
inductive SettlesIn (same : α → α → Bool) (step : α → σ → Option (α × σ)) :
    Nat → α → σ → α → σ → Prop
  | rest {a : α} {s : σ} : step a s = none → SettlesIn same step 0 a s a s
  | equal {a b : α} {s t : σ} : step a s = some (b, t) → same b a → SettlesIn same step 0 a s a t
  | next {n : Nat} {a b v : α} {s t u : σ} : step a s = some (b, t) → same b a = false →
      SettlesIn same step n b t v u → SettlesIn same step (n + 1) a s v u

/-- A run with a limit settles exactly when it does so within the limit. -/
theorem settle_eq_ok_iff {limit left : Nat} {a v : α} {s t : σ} :
    settle same step limit left a s = (.ok v, t) ↔
      ∃ n, n ≤ left ∧ SettlesIn same step n a s v t := by
  constructor
  · intro h
    induction left generalizing a s with
    | zero =>
      unfold settle at h
      split at h
      · next hs => cases h; exact ⟨0, Nat.le_refl _, .rest hs⟩
      · next b s' hs =>
        split at h
        · next he => cases h; exact ⟨0, Nat.le_refl _, .equal hs he⟩
        · cases h
    | succ left ih =>
      unfold settle at h
      split at h
      · next hs => cases h; exact ⟨0, Nat.zero_le _, .rest hs⟩
      · next b s' hs =>
        split at h
        · next he => cases h; exact ⟨0, Nat.zero_le _, .equal hs he⟩
        · next he =>
          obtain ⟨n, hn, hr⟩ := ih h
          exact ⟨n + 1, Nat.succ_le_succ hn, .next hs (by simpa using he) hr⟩
  · rintro ⟨n, hn, h⟩
    induction h generalizing left with
    | rest hs =>
      unfold settle
      rw [hs]
    | equal hs he =>
      unfold settle
      simp only [hs, he, if_true]
    | next hs he _ ih =>
      obtain ⟨left, rfl⟩ : ∃ k, left = k + 1 := ⟨left - 1, by omega⟩
      unfold settle
      simp only [hs, he, Bool.false_eq_true, if_false]
      exact ih (by omega)

/-- A run ends where nothing can be rewritten, if a rewrite never gives an equal value; and what every
rewrite keeps holds there. -/
theorem SettlesIn.final {I : α → σ → Prop} {n : Nat} {a v : α} {s t : σ}
    (h : SettlesIn same step n a s v t) (ha : I a s)
    (hstep : ∀ a b s t, I a s → step a s = some (b, t) → same b a = false ∧ I b t) :
    step v t = none ∧ I v t := by
  induction h with
  | rest hs => exact ⟨hs, ha⟩
  | equal hs he => rw [(hstep _ _ _ _ ha hs).1] at he; cases he
  | next hs _ _ ih => exact ih (hstep _ _ _ _ ha hs).2

/-- What every rewrite keeps of a value and the state holds at the end of a run, however it ends: of the
state with some value, and of the result with some state. -/
theorem settle_invariant {I : α → σ → Prop}
    (hstep : ∀ a b s t, I a s → step a s = some (b, t) → I b t) {limit : Nat} :
    ∀ {left : Nat} {a : α} {s : σ}, I a s →
      (∃ b, I b (settle same step limit left a s).2) ∧
        ∀ v, (settle same step limit left a s).1 = .ok v → ∃ t, I v t := by
  intro left
  induction left with
  | zero =>
    intro a s h
    unfold settle
    split
    · refine ⟨⟨a, h⟩, fun v hv => ?_⟩
      cases hv
      exact ⟨s, h⟩
    · next b t hs =>
      split
      · refine ⟨⟨b, hstep _ _ _ _ h hs⟩, fun v hv => ?_⟩
        cases hv
        exact ⟨s, h⟩
      · exact ⟨⟨b, hstep _ _ _ _ h hs⟩, fun v hv => by cases hv⟩
  | succ left ih =>
    intro a s h
    unfold settle
    split
    · refine ⟨⟨a, h⟩, fun v hv => ?_⟩
      cases hv
      exact ⟨s, h⟩
    · next b t hs =>
      split
      · refine ⟨⟨b, hstep _ _ _ _ h hs⟩, fun v hv => ?_⟩
        cases hv
        exact ⟨s, h⟩
      · exact ih (hstep _ _ _ _ h hs)

/-! ## The rewrites of a run -/

/-- `n` rewrites, each to another value, lead from `a` in the state `s` to `b` in the state `t`. -/
inductive RewritesIn (same : α → α → Bool) (step : α → σ → Option (α × σ)) :
    Nat → α → σ → α → σ → Prop
  | here {a : α} {s : σ} : RewritesIn same step 0 a s a s
  | next {n : Nat} {a b v : α} {s t u : σ} : step a s = some (b, t) → same b a = false →
      RewritesIn same step n b t v u → RewritesIn same step (n + 1) a s v u

/-- A run that settles has made its rewrites; then there is none, or one to an equal value. -/
theorem SettlesIn.exists_rewritesIn {n : Nat} {a v : α} {s t : σ} (h : SettlesIn same step n a s v t) :
    ∃ d, RewritesIn same step n a s v d ∧
      (step v d = none ∧ t = d ∨ ∃ b, step v d = some (b, t) ∧ same b v = true) := by
  induction h with
  | @rest a s hs => exact ⟨s, .here, .inl ⟨hs, rfl⟩⟩
  | @equal a b s t hs he => exact ⟨s, .here, .inr ⟨b, hs, he⟩⟩
  | next hs he _ ih =>
    obtain ⟨d, hr, hend⟩ := ih
    exact ⟨d, .next hs he hr, hend⟩

/-- Where rewrites always give something else, a run that settles has made its rewrites and nothing more. -/
theorem SettlesIn.rewritesIn {I : α → σ → Prop} {n : Nat} {a v : α} {s t : σ}
    (h : SettlesIn same step n a s v t) (ha : I a s)
    (hstep : ∀ a b s t, I a s → step a s = some (b, t) → same b a = false ∧ I b t) :
    RewritesIn same step n a s v t := by
  induction h with
  | rest => exact .here
  | equal hs he => rw [(hstep _ _ _ _ ha hs).1] at he; cases he
  | next hs he _ ih => exact .next hs he (ih (hstep _ _ _ _ ha hs).2)

/-- What every rewrite keeps holds after any number of them. -/
theorem RewritesIn.invariant {I : α → σ → Prop}
    (hstep : ∀ a b s t, I a s → step a s = some (b, t) → I b t) {n : Nat} {a v : α} {s t : σ}
    (h : RewritesIn same step n a s v t) (ha : I a s) : I v t := by
  induction h with
  | here => exact ha
  | next hs _ _ ih => exact ih (hstep _ _ _ _ ha hs)

/-- A run that gives up has made as many rewrites as it was allowed. One more is possible there, and the
state that is left is the one after it. -/
theorem rewritesIn_of_settle_error {limit left : Nat} {a : α} {s t : σ} {u : Unsettled α}
    (h : settle same step limit left a s = (.error u, t)) :
    u.limit = limit ∧ ∃ d b, RewritesIn same step left a s u.last d ∧
      step u.last d = some (b, t) ∧ same b u.last = false := by
  induction left generalizing a s with
  | zero =>
    unfold settle at h
    split at h
    · cases h
    · next b t' hs =>
      split at h
      · cases h
      · next he => cases h; exact ⟨rfl, s, b, .here, hs, by simpa using he⟩
  | succ left ih =>
    unfold settle at h
    split at h
    · cases h
    · next b t' hs =>
      split at h
      · cases h
      · next he =>
        obtain ⟨hlimit, d, b', hr, hmore⟩ := ih h
        exact ⟨hlimit, d, b', .next hs (by simpa using he) hr, hmore⟩

/-- The value that a run reached, settled or not. -/
def reached : Except (Unsettled α) α → α
  | .ok a => a
  | .error u => u.last

/-- What every rewrite keeps holds of the value that a run reaches, with some state. -/
theorem reached_invariant {I : α → σ → Prop}
    (hstep : ∀ a b s t, I a s → step a s = some (b, t) → I b t) {limit left : Nat} {a : α} {s : σ}
    (ha : I a s) : ∃ t, I (reached (settle same step limit left a s).1) t := by
  cases h : (settle same step limit left a s).1 with
  | ok v => exact (settle_invariant hstep ha).2 v h
  | error u =>
    obtain ⟨-, d, -, hrun, -⟩ := rewritesIn_of_settle_error (Prod.ext h rfl)
    exact ⟨d, hrun.invariant hstep ha⟩

/-- Where every rewrite gives something else with a smaller measure, the rewrites come to an end. -/
theorem exists_rewritesIn {measure : α → Nat}
    (hstep : ∀ a b s t, step a s = some (b, t) → same b a = false ∧ measure b < measure a) (a : α) (s : σ) :
    ∃ n v t, RewritesIn same step n a s v t ∧ step v t = none := by
  induction hsize : measure a using Nat.strongRecOn generalizing a s with
  | ind size ih =>
    subst hsize
    cases hs : step a s with
    | none => exact ⟨0, a, s, .here, hs⟩
    | some next =>
      obtain ⟨b, t⟩ := next
      obtain ⟨hsame, hlt⟩ := hstep a b s t hs
      obtain ⟨n, v, u, hr, hend⟩ := ih _ hlt b t rfl
      exact ⟨n + 1, v, u, .next hs hsame hr, hend⟩

/-- A run with a limit ends where the rewrites come to an end, if their number is within the limit; otherwise
it gives up after as many as it was allowed. -/
theorem settle_of_rewritesIn {n : Nat} {a v : α} {s t : σ} (h : RewritesIn same step n a s v t)
    (hend : step v t = none) (limit left : Nat) :
    (n ≤ left ∧ settle same step limit left a s = (.ok v, t)) ∨
      (left < n ∧ ∃ b d, RewritesIn same step left a s b d ∧
        (settle same step limit left a s).1 = .error ⟨limit, b⟩) := by
  induction h generalizing left with
  | here =>
    refine .inl ⟨Nat.zero_le _, ?_⟩
    unfold settle
    rw [hend]
  | @next n a b v s t u hs he _ ih =>
    cases left with
    | zero =>
      refine .inr ⟨Nat.zero_lt_succ n, a, s, .here, ?_⟩
      unfold settle
      simp only [hs, he, Bool.false_eq_true, if_false]
    | succ left =>
      have hnext : settle same step limit (left + 1) a s = settle same step limit left b t := by
        rw [settle]
        simp only [hs, he, Bool.false_eq_true, if_false]
      rw [hnext]
      obtain ⟨hle, hok⟩ | ⟨hlt, w, d, hr, herror⟩ := ih hend left
      · exact .inl ⟨Nat.succ_le_succ hle, hok⟩
      · exact .inr ⟨Nat.succ_lt_succ hlt, w, d, .next hs he hr, herror⟩

/-! ## Watching a run -/

/-- A rewrite; where there is none, the value and the state as they are. -/
def stepOrStay (step : α → σ → Option (α × σ)) (a : α) (s : σ) : α × σ :=
  (step a s).getD (a, s)

theorem stepOrStay_of_some {a b : α} {s t : σ} (h : step a s = some (b, t)) :
    stepOrStay step a s = (b, t) := by
  unfold stepOrStay
  rw [h]
  rfl

theorem stepOrStay_of_none {a : α} {s : σ} (h : step a s = none) : stepOrStay step a s = (a, s) := by
  unfold stepOrStay
  rw [h]
  rfl

/-- What is watched of a run starts with its rewrites. -/
theorem RewritesIn.exists_trace {n : Nat} {a v : α} {s d : σ} (h : RewritesIn same step n a s v d) :
    ∃ values : List α, values.length = n ∧ values.getLastD a = v ∧ ∀ more,
      (trace same (stepOrStay step) (n + more) a s).1 =
          values ++ (trace same (stepOrStay step) more v d).1 ∧
        (trace same (stepOrStay step) (n + more) a s).2 =
          (trace same (stepOrStay step) more v d).2 := by
  induction h with
  | here =>
    refine ⟨[], rfl, rfl, fun more => ?_⟩
    rw [Nat.zero_add, List.nil_append]
    exact ⟨rfl, rfl⟩
  | @next n a b v s t u hs he _ ih =>
    obtain ⟨values, hlen, hlast, htrace⟩ := ih
    refine ⟨b :: values, by simp [hlen], by rw [List.getLastD_cons, hlast], fun more => ?_⟩
    obtain ⟨hvalues, hstate⟩ := htrace more
    rw [Nat.add_right_comm, trace, stepOrStay_of_some hs]
    dsimp only
    rw [he, List.cons_append, ← hvalues]
    exact ⟨rfl, hstate⟩

/-- Where the next rewrite gives an equal value, nothing more is seen. -/
theorem trace_of_equal {v b : α} {d t : σ} (h : stepOrStay step v d = (b, t)) (he : same b v = true)
    (more : Nat) : (trace same (stepOrStay step) more v d).1 = [] := by
  cases more with
  | zero => rfl
  | succ more =>
    rw [trace, h]
    dsimp only
    rw [he]
    rfl

/-- Where there is no rewrite, nothing more is seen, and the state stays. -/
theorem trace_of_none (hsame : ∀ a, same a a = true) {v : α} {d : σ} (h : step v d = none) (more : Nat) :
    (trace same (stepOrStay step) more v d).1 = [] ∧
      (trace same (stepOrStay step) more v d).2.2 = d := by
  have hstay := stepOrStay_of_none h
  refine ⟨trace_of_equal hstay (hsame v) more, ?_⟩
  cases more with
  | zero => rfl
  | succ more =>
    rw [trace, hstay]
    dsimp only
    rw [hsame]
    rfl

/-- What was seen of a run from `a` with a limit tells its result: it ends at the value the run settles
at; and if the run gives up, it is as many rewrites as the limit allows and ends at the value the run
reached. -/
structure Tells (a : α) (limit : Nat) (seen : List α) (result : Except (Unsettled α) α) : Prop where
  settled : ∀ v, result = .ok v → seen.getLastD a = v
  unsettled : ∀ u, result = .error u →
    u.limit = limit ∧ seen.length = limit ∧ seen.getLastD a = u.last

/-- A run, watched for as many rewrites as its limit, tells its result. -/
theorem tells_trace (hsame : ∀ a, same a a = true) (limit : Nat) (a : α) (s : σ) :
    Tells a limit (trace same (stepOrStay step) limit a s).1
      (settle same step limit limit a s).1 where
  settled := by
    intro v hv
    obtain ⟨n, hn, h⟩ := settle_eq_ok_iff.1 (Prod.ext hv rfl)
    obtain ⟨d, hr, hend⟩ := h.exists_rewritesIn
    obtain ⟨values, -, hlast, htrace⟩ := hr.exists_trace
    obtain ⟨more, rfl⟩ : ∃ more, limit = n + more := ⟨limit - n, by omega⟩
    have hrest : (trace same (stepOrStay step) more v d).1 = [] := by
      obtain ⟨hs, -⟩ | ⟨b, hs, he⟩ := hend
      · exact (trace_of_none hsame hs more).1
      · exact trace_of_equal (stepOrStay_of_some hs) he more
    rw [(htrace more).1, hrest, List.append_nil, hlast]
  unsettled := by
    intro u hu
    obtain ⟨hlimit, d, b, hr, -⟩ := rewritesIn_of_settle_error (Prod.ext hu rfl)
    obtain ⟨values, hlen, hlast, htrace⟩ := hr.exists_trace
    have hseen : (trace same (stepOrStay step) limit a s).1 = values := by
      rw [← Nat.add_zero limit, (htrace 0).1]
      exact List.append_nil values
    rw [hseen]
    exact ⟨hlimit, hlen, hlast⟩

/-- Where rewrites always give something else, a run that settles leaves the same state when it is
watched for as many rewrites as its limit. -/
theorem trace_state {I : α → σ → Prop} (hsame : ∀ a, same a a = true)
    (hstep : ∀ a b s t, I a s → step a s = some (b, t) → same b a = false ∧ I b t) {limit : Nat} {a v : α}
    {s t : σ} (ha : I a s) (h : settle same step limit limit a s = (.ok v, t)) :
    (trace same (stepOrStay step) limit a s).2.2 = t := by
  obtain ⟨n, hn, hrun⟩ := settle_eq_ok_iff.1 h
  obtain ⟨values, -, -, htrace⟩ := (hrun.rewritesIn ha hstep).exists_trace
  obtain ⟨more, rfl⟩ : ∃ more, limit = n + more := ⟨limit - n, by omega⟩
  rw [(htrace more).2]
  exact (trace_of_none hsame (hrun.final ha hstep).1 more).2

/-- A watched run whose rewrites neither read nor change the state is the same with any state. -/
theorem trace_stateless {υ : Type} {same : α → α → Bool} (f : α → α) (limit : Nat) (a : α) (s : σ)
    (t : υ) : (trace same (fun a s => (f a, s)) limit a s).1 =
      (trace same (fun a t => (f a, t)) limit a t).1 := by
  induction limit generalizing a with
  | zero => rfl
  | succ limit ih =>
    unfold trace
    dsimp only
    split
    · rfl
    · rw [ih]

end

end Formula
