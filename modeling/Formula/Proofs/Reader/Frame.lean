import Formula.Proofs.Reader.Cached
import Formula.Reader.Working

/-!
# What reading leaves unchanged

A reader goes one level deeper for the pieces of a text and comes back whether they can be read or not, so
between texts it is as deep as it was, with the same grammar and the same limit. Only what it remembers has
changed, and a result is remembered only where none was when its text was begun: the pieces are read in
between, and may fail half way, but whatever was remembered before stays.

A step of a reader preserves this (`Framed`) when reading the pieces does, and so does a function of the host
program that only reads (`framed_run`). By induction on the levels that are left it holds of every text
(`framed_readWorking`), and the levels suffice: reading is one step that reads the pieces in the same way
(`Working.read_step`). The main statement is `Working.read_frame`. A reader that is not at work on another
text reads as `Reader.read` does (`Working.read_eq`).
-/

set_option autoImplicit false

namespace Formula

variable {hosts : HostBuilders}

/-! ## Readers at work -/

theorem WorkM.result_bind {α β : Type} (x : WorkM α) (f : α → WorkM β) (w : Working) :
    WorkM.result (x >>= f) w = match WorkM.result x w with
      | (.ok a, w') => WorkM.result (f a) w'
      | (.error e, w') => (.error e, w') := by
  show (match WorkM.result x w with | (r, w') => (ExceptT.bindCont f r).run w') = _
  split
  · next r w' h =>
    rw [h]
    cases r <;> rfl

theorem WorkM.result_get {α : Type} (f : Working → WorkM α) (w : Working) :
    WorkM.result (get >>= f) w = WorkM.result (f w) w := rfl

theorem WorkM.throw_bind {α β : Type} (e : ReadError) (f : α → WorkM β) :
    (throw e >>= f : WorkM β) = throw e := rfl

theorem buildWorking_eq {builder : Builder} (h : ∀ id, builder ≠ .host id)
    (read : List Char → WorkM Expr) (text : List Char) (token : Token) :
    buildWorking hosts read builder text token = buildPlain read builder text token := by
  cases builder with
  | host id => exact absurd rfl (h id)
  | _ => rfl

theorem oneDeeper_result {α : Type} (x : WorkM α) (w : Working) : WorkM.result (oneDeeper x) w =
    match WorkM.result x { w with depth := w.depth + 1 } with
    | (result, w') => (result, { w' with depth := w'.depth - 1 }) := rfl

theorem readWorking_hit {steps : Nat} {p : List Char} {w : Working} {e : Expr}
    (h : w.reader.cache.get? (cacheKey p) = some e) :
    WorkM.result (readWorking hosts steps p) w = (.ok e, w) := by
  rw [readWorking, WorkM.result_get, h]
  rfl

theorem readWorking_deep {steps : Nat} {p : List Char} {w : Working}
    (h : w.reader.cache.get? (cacheKey p) = none) (hdeep : w.reader.maxDepth ≤ w.depth) :
    WorkM.result (readWorking hosts steps p) w = (.error (.tooDeep w.depth p), w) := by
  rw [readWorking, WorkM.result_get, h]
  dsimp only
  rw [if_pos hdeep]
  rfl

/-- The reader one level higher, with what was read. -/
def Working.finish (p : List Char) :
    Except ReadError Expr × Working → Except ReadError Expr × Working
  | (.ok e, w) => (.ok e, ⟨w.reader.remember p e, w.depth - 1⟩)
  | (.error e, w) => (.error e, ⟨w.reader, w.depth - 1⟩)

theorem readWorking_step {steps : Nat} {p : List Char} {w : Working}
    (h : w.reader.cache.get? (cacheKey p) = none) (hdeep : w.depth < w.reader.maxDepth) :
    WorkM.result (readWorking hosts (steps + 1) p) w = Working.finish p (WorkM.result
      (readStepWith w.reader.grammar (buildWorking hosts (readWorking hosts steps)) p)
        { w with depth := w.depth + 1 }) := by
  rw [readWorking, WorkM.result_get, h]
  dsimp only
  rw [if_neg (Nat.not_le_of_lt hdeep), WorkM.result_bind, oneDeeper_result]
  rcases WorkM.result (readStepWith w.reader.grammar (buildWorking hosts (readWorking hosts steps)) p)
    { w with depth := w.depth + 1 } with ⟨_ | e, w'⟩ <;> rfl

/-! ## What is remembered stays -/

/-- What one cache remembers, the other remembers as well. -/
def Cache.Keeps (old new : Cache) : Prop :=
  ∀ key e, old.get? key = some e → new.get? key = some e

theorem Cache.Keeps.refl (cache : Cache) : cache.Keeps cache :=
  fun _ _ he => he

theorem Cache.Keeps.trans {old new newer : Cache} (h : old.Keeps new) (h' : new.Keeps newer) :
    old.Keeps newer :=
  fun key e he => h' key e (h key e he)

theorem Cache.Keeps.insert {old new : Cache} (h : Cache.Keeps old new) {key : String}
    (hkey : old.get? key = none) (e : Expr) : Cache.Keeps old (new.insert key e) := by
  intro other e' he'
  have hne : other ≠ key := by
    rintro rfl
    rw [hkey] at he'
    cases he'
  rw [Table.get?_insert_of_ne _ _ hne]
  exact h other e' he'

/-! ## The frame -/

section

variable {α β : Type} {g : Grammar} {limit depth : Nat}

/-- With a reader with this grammar and limit, at this depth, two computations have the same result and
leave the same reader. Of this nothing has changed but what it remembers, and whatever it remembered it
still does. -/
def Framed (g : Grammar) (limit depth : Nat) (x y : WorkM α) : Prop :=
  ∀ cache : Cache, ∃ result, ∃ cache' : Cache, cache.Keeps cache' ∧
    WorkM.result x ⟨⟨g, cache, limit⟩, depth⟩ = (result, ⟨⟨g, cache', limit⟩, depth⟩) ∧
    WorkM.result y ⟨⟨g, cache, limit⟩, depth⟩ = (result, ⟨⟨g, cache', limit⟩, depth⟩)

theorem framed_of_unchanged (result : Except ReadError α) {x y : WorkM α}
    (hx : ∀ w, WorkM.result x w = (result, w)) (hy : ∀ w, WorkM.result y w = (result, w)) :
    Framed g limit depth x y :=
  fun cache => ⟨result, cache, .refl cache, hx _, hy _⟩

theorem Framed.bind {x y : WorkM α} {f f' : α → WorkM β} (hx : Framed g limit depth x y)
    (hf : ∀ a, Framed g limit depth (f a) (f' a)) : Framed g limit depth (x >>= f) (y >>= f') := by
  intro cache
  obtain ⟨result, cache', hkeeps, hxr, hyr⟩ := hx cache
  rw [WorkM.result_bind, WorkM.result_bind, hxr, hyr]
  cases result with
  | error e => exact ⟨.error e, cache', hkeeps, rfl, rfl⟩
  | ok a =>
    obtain ⟨result', cache'', hkeeps', hfr, hfr'⟩ := hf a cache'
    exact ⟨result', cache'', hkeeps.trans hkeeps', hfr, hfr'⟩

/-- Computations with the same frame. -/
def Simulation.framed (g : Grammar) (limit depth : Nat) : Simulation WorkM WorkM where
  rel := Framed g limit depth
  pure a := framed_of_unchanged (.ok a) (fun _ => rfl) fun _ => rfl
  throw _ := framed_of_unchanged (.error _) (fun _ => rfl) fun _ => rfl
  bind := Framed.bind
  throw_bind_left := WorkM.throw_bind
  throw_bind_right := WorkM.throw_bind

variable {read read' : List Char → WorkM Expr}

/-- A function that only reads keeps the frame when reading does. -/
theorem framed_run (hread : ∀ q, Framed g limit depth (read q) (read' q)) (program : HostProgram) :
    Framed g limit depth (program.run read) (program.run read') := by
  induction program with
  | done result => exact framed_of_unchanged result (fun _ => rfl) fun _ => rfl
  | look next ih => exact fun cache => ih ⟨⟨g, cache, limit⟩, depth⟩ cache
  | read text next ih =>
    intro cache
    obtain ⟨result, cache', hkeeps, hx, hy⟩ := hread text cache
    obtain ⟨result', cache'', hkeeps', hx', hy'⟩ := ih result cache'
    have hrun : ∀ {read}, WorkM.result (read text) ⟨⟨g, cache, limit⟩, depth⟩ =
        (result, ⟨⟨g, cache', limit⟩, depth⟩) →
        WorkM.result ((HostProgram.read text next).run read) ⟨⟨g, cache, limit⟩, depth⟩ =
          WorkM.result ((next result).run read) ⟨⟨g, cache', limit⟩, depth⟩ := by
      intro read h
      show (match WorkM.result (read text) _ with | (r, w) => WorkM.result ((next r).run read) w) = _
      rw [h]
    exact ⟨result', cache'', hkeeps.trans hkeeps', (hrun hx).trans hx', (hrun hy).trans hy'⟩

/-- A function that reads a text and goes on with the tree, if there is one. -/
def HostProgram.readThen (text : List Char) (next : Expr → HostProgram) : HostProgram :=
  .read text fun
    | .ok e => next e
    | .error x => .done (.error x)

theorem HostProgram.run_readThen (text : List Char) (next : Expr → HostProgram) :
    (readThen text next).run read = read text >>= fun e => (next e).run read := by
  refine funext fun w => ?_
  show (match WorkM.result (read text) w with
    | (result, w') => WorkM.result ((match result with
      | .ok e => next e
      | .error x => .done (.error x)).run read) w') = WorkM.result (read text >>= _) w
  rw [WorkM.result_bind]
  rcases WorkM.result (read text) w with ⟨x | e, w'⟩ <;> rfl

/-- The builder of a binary operator only reads. -/
theorem HostProgram.exists_buildBinary (op : BinaryOperator) (input : List Char) (token : Token) :
    ∃ program : HostProgram, ∀ read, buildBinary read op input token = program.run read := by
  simp only [buildBinary]
  cases Text.before? token.index input with
  | none => exact ⟨.done (.error (.misplaced input)), fun _ => rfl⟩
  | some front =>
    cases Text.from? token.stop input with
    | none =>
      refine ⟨.readThen front fun _ => .done (.error (.misplaced input)), fun read => ?_⟩
      rw [orThrow, pure_bind, run_readThen]
      rfl
    | some back =>
      refine ⟨.readThen front fun left => .readThen back fun right =>
        .done (.ok (.binary left op right)), fun read => ?_⟩
      rw [orThrow, pure_bind, run_readThen]
      refine congrArg (read front >>= ·) (funext fun left => ?_)
      rw [orThrow, pure_bind, run_readThen]
      rfl

theorem framed_build (hhosts : g.Reenters hosts) {builder : Builder} {text : List Char} {token : Token}
    (hrule : ∃ rule ∈ g.rules, rule.builder? = some builder)
    (hread : ∀ q, Framed g limit depth (read q) (read' q)) :
    Framed g limit depth (buildWorking hosts read builder text token)
      (buildWorking hosts read' builder text token) := by
  by_cases hplain : ∀ id, builder ≠ .host id
  · rw [buildWorking_eq hplain, buildWorking_eq hplain]
    exact (Simulation.framed g limit depth).buildPlain fun q _ => hread q
  · obtain ⟨id, rfl⟩ := Classical.not_forall_not.1 hplain
    obtain ⟨rule, hmem, hbuilder⟩ := hrule
    obtain ⟨program, hprogram⟩ := hhosts rule hmem id hbuilder text token
    have h : ∀ read, buildWorking hosts read (.host id) text token = program.run read := hprogram
    rw [h, h]
    exact framed_run hread program

/-- Reading keeps the frame, and with as many steps as levels are left, more make no difference. -/
theorem framed_readWorking (hhosts : g.Reenters hosts) {steps steps' : Nat} (h : limit - depth ≤ steps)
    (h' : limit - depth ≤ steps') (p : List Char) :
    Framed g limit depth (readWorking hosts steps p) (readWorking hosts steps' p) := by
  induction steps generalizing steps' depth p with
  | zero =>
    intro cache
    cases hkey : cache.get? (cacheKey p) with
    | some e => exact ⟨_, cache, .refl cache, readWorking_hit hkey, readWorking_hit hkey⟩
    | none =>
      have hdeep : limit ≤ depth := by omega
      exact ⟨_, cache, .refl cache, readWorking_deep hkey hdeep, readWorking_deep hkey hdeep⟩
  | succ steps ih =>
    intro cache
    cases hkey : cache.get? (cacheKey p) with
    | some e => exact ⟨_, cache, .refl cache, readWorking_hit hkey, readWorking_hit hkey⟩
    | none =>
      rcases Nat.lt_or_ge depth limit with hdepth | hdeep
      · obtain ⟨steps', rfl⟩ : ∃ n, steps' = n + 1 := ⟨steps' - 1, by omega⟩
        have hstep : Framed g limit (depth + 1)
            (readStepWith g (buildWorking hosts (readWorking hosts steps)) p)
            (readStepWith g (buildWorking hosts (readWorking hosts steps')) p) :=
          (Simulation.framed g limit (depth + 1)).readStepWith fun builder token hplan =>
            framed_build hhosts (exists_rule_of_plan hplan) fun q => ih (by omega) (by omega) q
        obtain ⟨result, cache', hkeeps, hx, hy⟩ := hstep cache
        rw [readWorking_step hkey hdepth, readWorking_step hkey hdepth, hx, hy]
        cases result with
        | error e => exact ⟨_, cache', hkeeps, rfl, rfl⟩
        | ok e => exact ⟨_, _, hkeeps.insert hkey e, rfl, rfl⟩
      · exact ⟨_, cache, .refl cache, readWorking_deep hkey hdeep, readWorking_deep hkey hdeep⟩

end

/-! ## Reading with the levels that are left -/

section

variable {α β : Type} {g : Grammar} {limit depth : Nat}

/-- A reader with this grammar and limit, at this depth, has the result of `y`; what it remembers is what `y`
leaves, and nothing else of it has changed. -/
def Leaves (g : Grammar) (limit depth : Nat) (x : WorkM α) (y : ReadM α) : Prop :=
  ∀ cache : Cache, WorkM.result x ⟨⟨g, cache, limit⟩, depth⟩ =
    ((y.result cache).1, ⟨⟨g, (y.result cache).2, limit⟩, depth⟩)

theorem Leaves.bind {x : WorkM α} {y : ReadM α} {f : α → WorkM β} {f' : α → ReadM β}
    (hx : Leaves g limit depth x y) (hf : ∀ a, Leaves g limit depth (f a) (f' a)) :
    Leaves g limit depth (x >>= f) (y >>= f') := by
  intro cache
  rw [WorkM.result_bind, ReadM.result_bind, hx cache]
  rcases y.result cache with ⟨e | a, cache'⟩
  · rfl
  · exact hf a cache'

/-- Readers at work, beside reading with the levels that are left. -/
def Simulation.leaves (g : Grammar) (limit depth : Nat) : Simulation WorkM ReadM where
  rel := Leaves g limit depth
  pure _ := fun _ => rfl
  throw _ := fun _ => rfl
  bind := Leaves.bind
  throw_bind_left := WorkM.throw_bind
  throw_bind_right := ReadM.throw_bind

/-- Without functions of the host program, reading at some depth is reading with the levels that are
left. -/
theorem readWorking_leaves (hself : g.IsSelfContained) {steps depth : Nat}
    (h : limit - depth ≤ steps) (p : List Char) : Leaves g limit depth (readWorking hosts steps p)
      (g.readWithin (max limit depth) (limit - depth) p) := by
  induction steps generalizing depth p with
  | zero =>
    intro cache
    rw [readWithin_result]
    cases he : cache.get? (cacheKey p) with
    | some e => exact readWorking_hit he
    | none =>
      have hdeep : limit ≤ depth := by omega
      rw [readWorking_deep he hdeep, Nat.sub_eq_zero_of_le hdeep, max_eq_right hdeep]
  | succ steps ih =>
    intro cache
    rw [readWithin_result]
    cases he : cache.get? (cacheKey p) with
    | some e => exact readWorking_hit he
    | none =>
      rcases Nat.lt_or_ge depth limit with hdepth | hdeep
      · obtain ⟨n, hn⟩ : ∃ n, limit - depth = n + 1 := ⟨limit - depth - 1, by omega⟩
        have hread : ∀ q, Leaves g limit (depth + 1) (readWorking hosts steps q)
            (g.readWithin limit n q) := fun q => by
          have hq : Leaves g limit (depth + 1) (readWorking hosts steps q)
              (g.readWithin (max limit (depth + 1)) (limit - (depth + 1)) q) := ih (by omega) q
          rwa [max_eq_left (by omega), show limit - (depth + 1) = n by omega] at hq
        have hstep : Leaves g limit (depth + 1)
            (readStepWith g (buildWorking hosts (readWorking hosts steps)) p)
            (readStep g (g.readWithin limit n) p) := by
          refine (Simulation.leaves g limit (depth + 1)).readStepWith fun builder token hplan => ?_
          obtain ⟨rule, hmem, hbuilder⟩ := exists_rule_of_plan hplan
          have hplain : ∀ id, builder ≠ .host id := by
            rintro id rfl
            exact hself rule hmem id hbuilder
          rw [buildWorking_eq hplain]
          exact (Simulation.leaves g limit (depth + 1)).buildPlain fun q _ => hread q
        rw [readWorking_step he hdepth, hstep cache, hn, max_eq_left (Nat.le_of_lt hdepth)]
        dsimp only
        rcases (readStep g (g.readWithin limit n) p).result cache with ⟨e | e, cache'⟩ <;> rfl
      · rw [readWorking_deep he hdeep, Nat.sub_eq_zero_of_le hdeep, max_eq_right hdeep]

end

namespace Working

variable {w : Working} {input : List Char}

/-- Without functions of the host program, a reader at work reads with the levels that are left. -/
theorem read_eq (hself : w.reader.grammar.IsSelfContained) (hosts : HostBuilders) (input : List Char) :
    let y := (w.reader.grammar.readWithin (max w.reader.maxDepth w.depth) (w.reader.maxDepth - w.depth)
      input).result w.reader.cache
    w.read hosts input = (y.1, { w with reader := { w.reader with cache := y.2 } }) :=
  readWorking_leaves hself (Nat.le_refl _) input w.reader.cache

/-- A remembered result is given at any depth and with any limit, and nothing changes. -/
theorem read_of_get? {e : Expr} (h : w.reader.cache.get? (cacheKey input) = some e) :
    w.read hosts input = (.ok e, w) :=
  readWorking_hit h

/-- Reading, by whatever reader is at work. -/
def reading (hosts : HostBuilders) (input : List Char) : WorkM Expr :=
  ExceptT.mk fun w => w.read hosts input

/-- Reading is to look up a result, or else one step at the next level that reads the pieces in the same
way. -/
theorem read_step (hhosts : w.reader.grammar.Reenters hosts) (input : List Char) :
    w.read hosts input = match w.reader.cache.get? (cacheKey input) with
      | some e => (.ok e, w)
      | none =>
        if w.reader.maxDepth ≤ w.depth then (.error (.tooDeep w.depth input), w)
        else finish input (WorkM.result
          (readStepWith w.reader.grammar (buildWorking hosts (reading hosts)) input)
            { w with depth := w.depth + 1 }) := by
  obtain ⟨⟨g, cache, limit⟩, depth⟩ := w
  dsimp only
  cases hkey : cache.get? (cacheKey input) with
  | some e => exact readWorking_hit hkey
  | none =>
    dsimp only
    split
    · next hdeep => exact readWorking_deep hkey hdeep
    · next hdepth =>
      obtain ⟨n, hn⟩ : ∃ n, limit - depth = n + 1 := ⟨limit - depth - 1, by omega⟩
      have hread : ∀ q, Framed g limit (depth + 1) (readWorking hosts n q) (reading hosts q) :=
        fun q => framed_readWorking hhosts (by omega) (Nat.le_refl (limit - (depth + 1))) q
      have hstep : Framed g limit (depth + 1)
          (readStepWith g (buildWorking hosts (readWorking hosts n)) input)
          (readStepWith g (buildWorking hosts (reading hosts)) input) :=
        (Simulation.framed g limit (depth + 1)).readStepWith fun builder token hplan =>
          framed_build hhosts (exists_rule_of_plan hplan) hread
      obtain ⟨result, cache', -, hx, hy⟩ := hstep cache
      rw [read, hn, readWorking_step hkey (Nat.lt_of_not_le hdepth), hx, hy]

/-- A result that is given is remembered. -/
theorem get?_of_read (hhosts : w.reader.grammar.Reenters hosts) {e : Expr}
    (h : (w.read hosts input).1 = .ok e) :
    (w.read hosts input).2.reader.cache.get? (cacheKey input) = some e := by
  rw [read_step hhosts] at h ⊢
  cases hkey : w.reader.cache.get? (cacheKey input) with
  | some e' =>
    rw [hkey] at h
    cases h
    exact hkey
  | none =>
    rw [hkey] at h
    dsimp only at h ⊢
    split at h
    · cases h
    · next hdepth =>
      rw [if_neg hdepth]
      rcases hresult : WorkM.result
        (readStepWith w.reader.grammar (buildWorking hosts (reading hosts)) input)
          { w with depth := w.depth + 1 } with ⟨x | e', w'⟩
      · rw [hresult] at h
        cases h
      · rw [hresult] at h
        cases h
        exact Table.get?_insert_self ..

/-- Whatever the grammar, what is remembered and how deeply a reader has nested, and whether a text can be
read or not: reading the text changes nothing of the reader but what it remembers, and it still remembers
all results that it did. When it gives a tree, that is remembered under the key of the text, and reading any
text with that key then gives the tree and changes nothing, whatever the limit on depth.

The functions of the host program that the grammar builds with are any that only read with the reader.
Without such functions, a reader that is not at work on another text reads as `Reader.read` does. -/
theorem read_frame (w : Working) (hhosts : w.reader.grammar.Reenters hosts) (input : List Char) :
    (w.read hosts input).2 =
        { w with reader := { w.reader with cache := (w.read hosts input).2.reader.cache } } ∧
      (∀ key e, w.reader.cache.get? key = some e →
        (w.read hosts input).2.reader.cache.get? key = some e) ∧
      (∀ e, (w.read hosts input).1 = .ok e →
        (w.read hosts input).2.reader.cache.get? (cacheKey input) = some e ∧
          ∀ (text : List Char) (maxDepth depth : Nat), cacheKey text = cacheKey input →
            let w' : Working := ⟨{ (w.read hosts input).2.reader with maxDepth }, depth⟩
            w'.read hosts text = (.ok e, w')) ∧
      (w.depth = 0 → w.reader.grammar.IsSelfContained → w.read hosts input =
        ((w.reader.read input).1, { w with reader := (w.reader.read input).2 })) := by
  obtain ⟨result, cache', hkeeps, hread, -⟩ := framed_readWorking hhosts
    (Nat.le_refl (w.reader.maxDepth - w.depth)) (Nat.le_refl _) input w.reader.cache
  have hread : w.read hosts input = (result, { w with reader := { w.reader with cache := cache' } }) :=
    hread
  refine ⟨by rw [hread], by rw [hread]; exact hkeeps, ?_, ?_⟩
  · intro e he
    have hget := get?_of_read hhosts he
    refine ⟨hget, fun text maxDepth depth hkey => read_of_get? ?_⟩
    rw [hkey]
    exact hget
  · intro hdepth hself
    obtain ⟨⟨grammar, cache, maxDepth⟩, depth⟩ := w
    obtain rfl : depth = 0 := hdepth
    rw [read_eq hself, Nat.max_zero, Nat.sub_zero]
    rfl

/-- The remainder with the word `mod` as its operator, built by the host program. Of a pair in which an
element is missing, the other is read before it fails; all that was read before is still remembered then, and
a reader that may not nest at all still reads it. -/
theorem read_frame_mod :
    let hosts : HostBuilders := fun _ read => buildBinary read .mod
    let mod : Rule := ⟨"ModWord", some "mod",
      .operator { rightToLeft := true, padReferences := true } (.host 0)⟩
    let start : Working := ⟨(Reader.default.insertRule mod 14).2, 0⟩
    let w := (start.read hosts "7 mod 3".toList).2
    let w' := (w.read hosts "(8 mod 3, )".toList).2
    ∃ e, (start.read hosts "7 mod 3".toList).1 = .ok e ∧
      (w.read hosts "(8 mod 3, )".toList).1.isOk = false ∧ w'.depth = 0 ∧
      w'.reader.remembers "8 mod 3".toList = true ∧
      w'.reader.cache.get? (cacheKey "7 mod 3".toList) = some e ∧
      (Working.read ⟨{ w.reader with maxDepth := 0 }, 0⟩ hosts " 7  mod 3".toList).1 = .ok e := by
  intro hosts mod start w w'
  have hhosts : ∀ g : Grammar, g.Reenters hosts := fun g rule _ id _ input token =>
    HostProgram.exists_buildBinary .mod input token
  have hruns : (start.read hosts "7 mod 3".toList).1.isOk = true ∧
      (w.read hosts "(8 mod 3, )".toList).1.isOk = false ∧
      w'.reader.remembers "8 mod 3".toList = true := by
    decide +kernel
  obtain ⟨hmod, hfails, hpiece⟩ := hruns
  obtain ⟨hstart, -, hok, -⟩ := read_frame start (hhosts _) "7 mod 3".toList
  obtain ⟨hsame, hkept, -⟩ := read_frame w (hhosts _) "(8 mod 3, )".toList
  cases hread : (start.read hosts "7 mod 3".toList).1 with
  | error x =>
    rw [hread] at hmod
    cases hmod
  | ok e =>
    obtain ⟨hget, hagain⟩ := hok e hread
    have hdepth : w'.depth = 0 :=
      (congrArg Working.depth hsame).trans (congrArg Working.depth hstart)
    refine ⟨e, rfl, hfails, hdepth, hpiece, hkept _ e hget, ?_⟩
    exact congrArg Prod.fst (hagain " 7  mod 3".toList 0 0 (by decide))

/-- A function of the host program that does more than read can make the reader forget. -/
example :
    let hosts : HostBuilders := fun _ _ _ _ => do
      modify fun w => { w with reader := w.reader.forgetAll }
      pure (.variable "x")
    let any : Rule := ⟨"Any", some ".", .pattern {} (.host 0)⟩
    let reader : Reader := { grammar := .ofRules [any] }
    let w : Working := ⟨reader.remember ['y'] (.variable "y"), 0⟩
    w.reader.remembers ['y'] = true ∧ (w.read hosts ['x']).2.reader.remembers ['y'] = false := by
  decide +kernel

end Working

end Formula
