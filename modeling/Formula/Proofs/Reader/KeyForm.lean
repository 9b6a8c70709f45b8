import Formula.Proofs.Text.Commas
import Formula.Reader.Key

/-!
# The normal form that a key is

All that a key depends on are the characters of a text besides blanks, each with the answer to whether
blanks stand before it (`spotsFrom`). A key keeps the characters, and of the answers those for characters
that blanks keep apart (`keptFrom`); written out, that is the key (`keyFrom_eq_written`), and it can be
read off the key again (`spotsFrom_written`). From these two follow which texts have the same key, that a
key is its own key, and where there are no blanks in it (`cacheKey_normalForm`).
-/

set_option autoImplicit false

namespace Formula

/-! ## Where blanks stand -/

/-- Blanks stand between a character and the next one. Characters are counted without blanks. -/
def SeparatedAt (text : List Char) (i : Nat) : Prop :=
  ∃ front c z d back, text = front ++ c :: (z ++ d :: back) ∧ (Text.solid front).length = i ∧
    Text.isBlank c = false ∧ Text.isBlank d = false ∧ z ≠ [] ∧ ∀ x ∈ z, Text.isBlank x = true

/-- The characters of a text besides blanks, each with whether blanks stand before it. `gap` says
whether blanks stand before the text. -/
def spotsFrom : (gap : Bool) → List Char → List (Bool × Char)
  | _, [] => []
  | gap, c :: text =>
    if Text.isBlank c then spotsFrom true text else (gap, c) :: spotsFrom false text

section

variable {gap : Bool} {c d : Char} {z text : List Char} {i : Nat}

theorem spotsFrom_blank (hc : Text.isBlank c = true) :
    spotsFrom gap (c :: text) = spotsFrom true text := if_pos hc

theorem spotsFrom_solid (hc : Text.isBlank c = false) :
    spotsFrom gap (c :: text) = (gap, c) :: spotsFrom false text := by
  rw [spotsFrom, if_neg (by simp [hc])]

theorem spotsFrom_append (hz : ∀ x ∈ z, Text.isBlank x = true) :
    spotsFrom gap (z ++ text) = spotsFrom (gap || !z.isEmpty) text := by
  induction z generalizing gap with
  | nil => simp
  | cons x z ih =>
    rw [List.cons_append, spotsFrom_blank (hz x List.mem_cons_self),
      ih fun y hy => hz y (List.mem_cons_of_mem x hy)]
    simp

/-- The spots of a text are its characters besides blanks. -/
theorem map_spotsFrom (gap : Bool) (text : List Char) :
    (spotsFrom gap text).map Prod.snd = Text.solid text := by
  induction text generalizing gap with
  | nil => rfl
  | cons c text ih =>
    cases hc : Text.isBlank c with
    | true => rw [spotsFrom_blank hc, Text.solid_cons_blank hc, ih]
    | false => rw [spotsFrom_solid hc, Text.solid_cons hc, List.map_cons, ih]

/-- A text begins with blanks before its first other character. -/
theorem head_spotsFrom : (∃ d, (spotsFrom false text)[0]? = some (true, d)) ↔
    ∃ z d back, text = z ++ d :: back ∧ Text.isBlank d = false ∧ z ≠ [] ∧
      ∀ x ∈ z, Text.isBlank x = true := by
  constructor
  · rintro ⟨d, hd⟩
    have hz : ∀ x ∈ text.takeWhile Text.isBlank, Text.isBlank x = true := fun x hx =>
      List.mem_takeWhile_imp hx
    have htext := List.takeWhile_append_dropWhile (p := Text.isBlank) (l := text)
    rw [← htext, spotsFrom_append hz] at hd
    cases hrest : text.dropWhile Text.isBlank with
    | nil =>
      rw [hrest] at hd
      cases hd
    | cons e back =>
      have he : Text.isBlank e = false := by
        have := List.head?_dropWhile_not Text.isBlank text
        rw [hrest] at this
        simpa using this
      rw [hrest, spotsFrom_solid he] at hd
      have hgap : (!(text.takeWhile Text.isBlank).isEmpty) = true :=
        congrArg Prod.fst (Option.some.inj hd)
      exact ⟨_, e, back, by rw [← hrest, htext], he, by simpa using hgap, hz⟩
  · rintro ⟨z, d, back, rfl, hd, hne, hz⟩
    refine ⟨d, ?_⟩
    rw [spotsFrom_append hz, spotsFrom_solid hd]
    simp [hne]

theorem separatedAt_blank (hc : Text.isBlank c = true) :
    SeparatedAt (c :: text) i ↔ SeparatedAt text i := by
  constructor
  · rintro ⟨front, x, z, d, back, ht, hlen, hx, hd, hne, hz⟩
    cases front with
    | nil =>
      injection ht with hcx
      rw [hcx, hx] at hc
      cases hc
    | cons y front =>
      injection ht with hcy ht
      subst hcy
      rw [Text.solid_cons_blank hc] at hlen
      exact ⟨front, x, z, d, back, ht, hlen, hx, hd, hne, hz⟩
  · rintro ⟨front, x, z, d, back, rfl, hlen, hx, hd, hne, hz⟩
    refine ⟨c :: front, x, z, d, back, rfl, ?_, hx, hd, hne, hz⟩
    rw [Text.solid_cons_blank hc, hlen]

theorem separatedAt_succ (hc : Text.isBlank c = false) :
    SeparatedAt (c :: text) (i + 1) ↔ SeparatedAt text i := by
  constructor
  · rintro ⟨front, x, z, d, back, ht, hlen, hx, hd, hne, hz⟩
    cases front with
    | nil => cases hlen
    | cons y front =>
      injection ht with hcy ht
      subst hcy
      rw [Text.solid_cons hc, List.length_cons, Nat.add_right_cancel_iff] at hlen
      exact ⟨front, x, z, d, back, ht, hlen, hx, hd, hne, hz⟩
  · rintro ⟨front, x, z, d, back, rfl, hlen, hx, hd, hne, hz⟩
    refine ⟨c :: front, x, z, d, back, rfl, ?_, hx, hd, hne, hz⟩
    rw [Text.solid_cons hc, List.length_cons, hlen]

theorem separatedAt_zero (hc : Text.isBlank c = false) : SeparatedAt (c :: text) 0 ↔
    ∃ z d back, text = z ++ d :: back ∧ Text.isBlank d = false ∧ z ≠ [] ∧
      ∀ x ∈ z, Text.isBlank x = true := by
  constructor
  · rintro ⟨front, x, z, d, back, ht, hlen, hx, hd, hne, hz⟩
    cases front with
    | nil =>
      injection ht with _ ht
      exact ⟨z, d, back, ht, hd, hne, hz⟩
    | cons y front =>
      injection ht with hcy ht
      rw [← hcy, Text.solid_cons hc] at hlen
      cases hlen
  · rintro ⟨z, d, back, rfl, hd, hne, hz⟩
    exact ⟨[], c, z, d, back, rfl, rfl, hc, hd, hne, hz⟩

/-- Where blanks stand is told by the spots. -/
theorem separatedAt_iff (gap : Bool) :
    SeparatedAt text i ↔ ∃ d, (spotsFrom gap text)[i + 1]? = some (true, d) := by
  induction text generalizing gap i with
  | nil =>
    refine ⟨?_, by simp [spotsFrom]⟩
    rintro ⟨front, x, z, d, back, ht, -⟩
    simp at ht
  | cons c text ih =>
    cases hc : Text.isBlank c with
    | true => rw [separatedAt_blank hc, spotsFrom_blank hc, ih]
    | false =>
      rw [spotsFrom_solid hc, List.getElem?_cons_succ]
      cases i with
      | zero => rw [separatedAt_zero hc, head_spotsFrom]
      | succ i => rw [separatedAt_succ hc, ih]

end

/-! ## What is kept -/

/-- The spots of a key. Blanks are kept only between characters that they keep apart; `last` is the
character before. -/
def keptFrom : (last : Option Char) → List (Bool × Char) → List (Bool × Char)
  | _, [] => []
  | last, (gap, c) :: rest => (gap && last.any (keepsApart · c), c) :: keptFrom (some c) rest

/-- Writes spots out, with single spaces. -/
def written : List (Bool × Char) → List Char
  | [] => []
  | (true, c) :: rest => ' ' :: c :: written rest
  | (false, c) :: rest => c :: written rest

/-- A key is what is kept, written out. -/
theorem keyFrom_eq_written (last : Option Char) (gap : Bool) (text : List Char) :
    keyFrom last gap text = written (keptFrom last (spotsFrom gap text)) := by
  induction text generalizing last gap with
  | nil => rfl
  | cons c text ih =>
    cases hc : Text.isBlank c with
    | true => rw [keyFrom, if_pos hc, spotsFrom_blank hc, ih]
    | false =>
      rw [keyFrom, if_neg (by simp [hc]), spotsFrom_solid hc, keptFrom, ih]
      cases gap && last.any (keepsApart · c) <;> rfl

/-- What was written out can be told again. -/
theorem spotsFrom_written {spots : List (Bool × Char)}
    (h : ∀ p ∈ spots, Text.isBlank p.2 = false) : spotsFrom false (written spots) = spots := by
  induction spots with
  | nil => rfl
  | cons p spots ih =>
    obtain ⟨gap, c⟩ := p
    have hc : Text.isBlank c = false := h (gap, c) List.mem_cons_self
    have ih := ih fun q hq => h q (List.mem_cons_of_mem _ hq)
    cases gap with
    | true => rw [written, spotsFrom_blank Text.isBlank_space, spotsFrom_solid hc, ih]
    | false => rw [written, spotsFrom_solid hc, ih]

section

variable {last : Option Char} {spots : List (Bool × Char)}

theorem map_keptFrom : (keptFrom last spots).map Prod.snd = spots.map Prod.snd := by
  induction spots generalizing last with
  | nil => rfl
  | cons p spots ih => rw [keptFrom, List.map_cons, List.map_cons, ih]

theorem keptFrom_keptFrom : keptFrom last (keptFrom last spots) = keptFrom last spots := by
  induction spots generalizing last with
  | nil => rfl
  | cons p spots ih => rw [keptFrom, keptFrom, ih, Bool.and_assoc, Bool.and_self]

theorem getElem?_keptFrom_zero :
    (keptFrom none spots)[0]? = spots[0]?.map fun p => (false, p.2) := by
  cases spots with
  | nil => rfl
  | cons p spots => simp [keptFrom]

theorem getElem?_keptFrom_succ (i : Nat) : (keptFrom last spots)[i + 1]? =
    (spots[i]?.bind fun p => spots[i + 1]?.map fun q => (q.1 && keepsApart p.2 q.2, q.2)) := by
  induction spots generalizing last i with
  | nil => rfl
  | cons p spots ih =>
    rw [keptFrom, List.getElem?_cons_succ]
    cases i with
    | succ i => rw [ih]; rfl
    | zero =>
      cases spots with
      | nil => rfl
      | cons q spots => simp [keptFrom]

end

section

variable {spots spots' : List (Bool × Char)}

/-- Spots with the same characters differ in their answers only. -/
theorem spot_cases (h : spots.map Prod.snd = spots'.map Prod.snd) (i : Nat) :
    (spots[i]? = none ∧ spots'[i]? = none) ∨
      ∃ g g' c, spots[i]? = some (g, c) ∧ spots'[i]? = some (g', c) := by
  have hchar : spots[i]?.map Prod.snd = spots'[i]?.map Prod.snd := by
    rw [← List.getElem?_map, h, List.getElem?_map]
  cases hp : spots[i]? with
  | none =>
    rw [hp, Option.map_none, eq_comm, Option.map_eq_none_iff] at hchar
    exact .inl ⟨rfl, hchar⟩
  | some p =>
    rw [hp, Option.map_some, eq_comm, Option.map_eq_some_iff] at hchar
    obtain ⟨p', hp', hc⟩ := hchar
    exact .inr ⟨p.1, p'.1, p.2, rfl, by rw [hp', ← hc]⟩

/-- The same is kept of spots with the same characters whose answers are the same for characters that
blanks keep apart. -/
theorem keptFrom_eq_iff : keptFrom none spots = keptFrom none spots' ↔
    spots.map Prod.snd = spots'.map Prod.snd ∧
      ∀ i c d, (spots.map Prod.snd)[i]? = some c → (spots.map Prod.snd)[i + 1]? = some d →
        keepsApart c d = true →
          ((∃ e, spots[i + 1]? = some (true, e)) ↔ ∃ e, spots'[i + 1]? = some (true, e)) := by
  constructor
  · intro h
    have hchars : spots.map Prod.snd = spots'.map Prod.snd := by
      have hmap := congrArg (List.map Prod.snd) h
      rwa [map_keptFrom, map_keptFrom] at hmap
    refine ⟨hchars, fun i c d hc hd hkeeps => ?_⟩
    have hkept : (keptFrom none spots)[i + 1]? = (keptFrom none spots')[i + 1]? := by rw [h]
    rw [getElem?_keptFrom_succ, getElem?_keptFrom_succ] at hkept
    rw [List.getElem?_map] at hc hd
    obtain ⟨hp, -⟩ | ⟨g, g', c', hp, hp'⟩ := spot_cases hchars i
    · rw [hp] at hc
      cases hc
    obtain ⟨hq, -⟩ | ⟨f, f', d', hq, hq'⟩ := spot_cases hchars (i + 1)
    · rw [hq] at hd
      cases hd
    rw [hp, Option.map_some, Option.some.injEq] at hc
    rw [hq, Option.map_some, Option.some.injEq] at hd
    subst hc hd
    rw [hp, hp', hq, hq'] at hkept
    have hf : f = f' := by simpa [hkeeps] using hkept
    rw [hq, hq', hf]
  · rintro ⟨hchars, hgaps⟩
    refine List.ext_getElem? fun i => ?_
    cases i with
    | zero =>
      rw [getElem?_keptFrom_zero, getElem?_keptFrom_zero]
      obtain ⟨hp, hp'⟩ | ⟨g, g', c, hp, hp'⟩ := spot_cases hchars 0
      · rw [hp, hp']
      · rw [hp, hp']
        rfl
    | succ i =>
      rw [getElem?_keptFrom_succ, getElem?_keptFrom_succ]
      obtain ⟨hp, hp'⟩ | ⟨g, g', c, hp, hp'⟩ := spot_cases hchars i
      · rw [hp, hp']
        rfl
      obtain ⟨hq, hq'⟩ | ⟨f, f', d, hq, hq'⟩ := spot_cases hchars (i + 1)
      · rw [hp, hp', hq, hq']
        rfl
      have hgap := hgaps i c d (by rw [List.getElem?_map, hp]; rfl) (by rw [List.getElem?_map, hq]; rfl)
      rw [hp, hp', hq, hq']
      rw [hq, hq'] at hgap
      cases hkeeps : keepsApart c d with
      | false => simp [hkeeps]
      | true =>
        have hf : f = f' := by
          rw [Bool.eq_iff_iff]
          simpa using hgap hkeeps
        rw [hf]
        rfl

end

/-! ## Where there are no blanks in a key -/

/-- Every blank is a space between two other characters. -/
def SinglySpaced (text : List Char) : Prop :=
  ∀ front x back, text = front ++ x :: back → Text.isBlank x = true → x = ' ' ∧
    (∃ front' c, front = front' ++ [c] ∧ Text.isBlank c = false) ∧
      ∃ d back', back = d :: back' ∧ Text.isBlank d = false

theorem singlySpaced_written {spots : List (Bool × Char)}
    (h : ∀ p ∈ spots, Text.isBlank p.2 = false) {c : Char} (hc : Text.isBlank c = false) :
    SinglySpaced (c :: written spots) := by
  induction spots generalizing c with
  | nil =>
    intro front x back ht hx
    obtain ⟨-, rfl, -⟩ : front = [] ∧ x = c ∧ back = [] := by
      simpa [written, List.singleton_eq_append_iff] using ht
    rw [hc] at hx
    cases hx
  | cons p spots ih =>
    obtain ⟨gap, d⟩ := p
    have hd : Text.isBlank d = false := h (gap, d) List.mem_cons_self
    have ih := ih (fun q hq => h q (List.mem_cons_of_mem _ hq)) hd
    intro front x back ht hx
    cases front with
    | nil =>
      injection ht with hcx
      rw [← hcx, hc] at hx
      cases hx
    | cons e front =>
      injection ht with hce ht
      subst hce
      cases gap with
      | false =>
        obtain ⟨hspace, ⟨front', e, rfl, he⟩, hback⟩ := ih front x back ht hx
        exact ⟨hspace, ⟨c :: front', e, rfl, he⟩, hback⟩
      | true =>
        cases front with
        | nil =>
          injection ht with hspace ht
          exact ⟨hspace.symm, ⟨[], c, rfl, hc⟩, d, written spots, ht.symm, hd⟩
        | cons f front =>
          injection ht with _ ht
          obtain ⟨hspace, ⟨front', e, rfl, he⟩, hback⟩ := ih front x back ht hx
          exact ⟨hspace, ⟨c :: f :: front', e, rfl, he⟩, hback⟩

/-! ## Keys -/

theorem solid_of_mem_keptFrom {last : Option Char} {gap : Bool} {text : List Char} :
    ∀ p ∈ keptFrom last (spotsFrom gap text), Text.isBlank p.2 = false := by
  intro p hp
  have hmem : p.2 ∈ Text.solid text := by
    have hmap : p.2 ∈ (keptFrom last (spotsFrom gap text)).map Prod.snd := List.mem_map_of_mem hp
    rwa [map_keptFrom, map_spotsFrom] at hmap
  simpa using (List.mem_filter.1 hmem).2

theorem toList_cacheKey (text : List Char) :
    (cacheKey text).toList = written (keptFrom none (spotsFrom false text)) := by
  rw [cacheKey, String.toList_ofList, keyFrom_eq_written]

/-- The spots of a key are what is kept of the text's. -/
theorem spotsFrom_cacheKey (text : List Char) :
    spotsFrom false (cacheKey text).toList = keptFrom none (spotsFrom false text) := by
  rw [toList_cacheKey, spotsFrom_written solid_of_mem_keptFrom]

theorem cacheKey_eq_iff (a b : List Char) : cacheKey a = cacheKey b ↔
    keptFrom none (spotsFrom false a) = keptFrom none (spotsFrom false b) := by
  constructor
  · intro h
    rw [← spotsFrom_cacheKey, h, spotsFrom_cacheKey]
  · intro h
    rw [← String.toList_inj, toList_cacheKey, h, toList_cacheKey]

theorem cacheKey_cacheKey (text : List Char) : cacheKey (cacheKey text).toList = cacheKey text := by
  rw [cacheKey_eq_iff, spotsFrom_cacheKey, keptFrom_keptFrom]

theorem singlySpaced_cacheKey (text : List Char) : SinglySpaced (cacheKey text).toList := by
  have hsolid : ∀ p ∈ keptFrom none (spotsFrom false text), Text.isBlank p.2 = false :=
    solid_of_mem_keptFrom
  rw [toList_cacheKey]
  cases hspots : spotsFrom false text with
  | nil =>
    intro front x back ht
    simp [keptFrom, written] at ht
  | cons p spots =>
    rw [hspots, keptFrom] at hsolid
    rw [keptFrom, Option.any_none, Bool.and_false]
    exact singlySpaced_written (fun q hq => hsolid q (List.mem_cons_of_mem _ hq))
      (List.forall_mem_cons.1 hsolid).1

theorem keepsApart_iff {c d : Char} : keepsApart c d = true ↔
    JoinClass.of c = JoinClass.of d ∧ JoinClass.of c ≠ .delimiter := by
  rw [keepsApart, Bool.and_eq_true, decide_eq_true_iff, decide_eq_true_iff]
  exact and_congr_right fun h => by rw [h]

/-- Two texts have the same key exactly if they have the same characters besides blanks, and beside each
other two of a class other than brackets and commas are separated by blanks in both texts or in neither.
A key is its own key, does not begin or end with a blank, and no two blanks stand beside each other in
it. -/
theorem cacheKey_normalForm (a b : List Char) :
    (cacheKey a = cacheKey b ↔ Text.solid a = Text.solid b ∧
      ∀ i c d, (Text.solid a)[i]? = some c → (Text.solid a)[i + 1]? = some d →
        JoinClass.of c = JoinClass.of d → JoinClass.of c ≠ .delimiter →
          (SeparatedAt a i ↔ SeparatedAt b i)) ∧
    cacheKey (cacheKey a).toList = cacheKey a ∧
    (∀ c rest, (cacheKey a).toList = c :: rest → Text.isBlank c = false) ∧
    (∀ front c, (cacheKey a).toList = front ++ [c] → Text.isBlank c = false) ∧
    ∀ front c d back, (cacheKey a).toList = front ++ c :: d :: back →
      Text.isBlank c = false ∨ Text.isBlank d = false := by
  have hspaced := singlySpaced_cacheKey a
  refine ⟨?_, cacheKey_cacheKey a, fun c rest ht => ?_, fun front c ht => ?_,
    fun front c d back ht => ?_⟩
  · rw [cacheKey_eq_iff, keptFrom_eq_iff, map_spotsFrom, map_spotsFrom]
    simp only [← separatedAt_iff, keepsApart_iff, and_imp]
  · cases hc : Text.isBlank c with
    | false => rfl
    | true =>
      obtain ⟨-, ⟨front', e, hfront, -⟩, -⟩ := hspaced [] c rest ht hc
      simp at hfront
  · cases hc : Text.isBlank c with
    | false => rfl
    | true =>
      obtain ⟨-, -, e, back', hback, -⟩ := hspaced front c [] ht hc
      cases hback
  · cases hc : Text.isBlank c with
    | false => exact .inl rfl
    | true =>
      obtain ⟨-, -, e, back', hback, he⟩ := hspaced front c (d :: back) ht hc
      injection hback with hde
      exact .inr (hde ▸ he)

end Formula
