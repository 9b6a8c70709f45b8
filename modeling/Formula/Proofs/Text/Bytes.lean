import Formula.Text.Bytes

/-!
# Cuts of a text

A cut at a byte exists exactly where a character ends (`splitAt?_eq_some`), so a text that is put
together from two parts can be taken apart at the length of the first.
-/

set_option autoImplicit false

namespace Formula.Text

variable {n : Nat} {s t u cs : List Char}

@[simp] theorem byteSize_nil : byteSize [] = 0 := rfl

theorem byteSize_cons (c : Char) (s : List Char) : byteSize (c :: s) = c.utf8Size + byteSize s := rfl

theorem byteSize_append (s t : List Char) : byteSize (s ++ t) = byteSize s + byteSize t := by
  induction s with
  | nil => simp
  | cons c s ih => simp [byteSize_cons, ih, Nat.add_assoc]

theorem byteSize_reverse (s : List Char) : byteSize s.reverse = byteSize s := by
  induction s with
  | nil => rfl
  | cons c s ih =>
    rw [List.reverse_cons, byteSize_append, ih, byteSize_cons, byteSize_cons, byteSize_nil]
    omega

theorem byteSize_pos (hs : s ≠ []) : 0 < byteSize s := by
  cases s with
  | nil => exact absurd rfl hs
  | cons c s => exact Nat.add_pos_left c.utf8Size_pos _

/-- Of two beginnings of one text, the longer one has more bytes. -/
theorem byteSize_le_iff (hs : s <+: u) (ht : t <+: u) :
    byteSize s ≤ byteSize t ↔ s.length ≤ t.length := by
  constructor
  · intro hle
    rcases Nat.le_total s.length t.length with hlen | hlen
    · exact hlen
    · obtain ⟨w, rfl⟩ := List.prefix_of_prefix_length_le ht hs hlen
      cases w with
      | nil => exact Nat.le_of_eq (by rw [List.append_nil])
      | cons c w =>
        have := byteSize_pos (List.cons_ne_nil c w)
        rw [byteSize_append] at hle
        omega
  · intro hlen
    obtain ⟨w, rfl⟩ := List.prefix_of_prefix_length_le hs ht hlen
    rw [byteSize_append]
    exact Nat.le_add_right ..

theorem splitAt?_append (s t : List Char) : splitAt? (byteSize s) (s ++ t) = some (s, t) := by
  induction s with
  | nil => cases t <;> rfl
  | cons c s ih =>
    obtain ⟨n, hn⟩ := Nat.exists_eq_succ_of_ne_zero (Nat.ne_of_gt c.utf8Size_pos)
    have hs : c.utf8Size + byteSize s = n + byteSize s + 1 := by omega
    have hle : c.utf8Size ≤ n + byteSize s + 1 := by omega
    have hsub : n + byteSize s + 1 - c.utf8Size = byteSize s := by omega
    rw [byteSize_cons, hs, List.cons_append, splitAt?, if_pos hle, hsub, ih]
    rfl

/-- A cut at a byte exists exactly where a character ends. -/
theorem splitAt?_eq_some : splitAt? n cs = some (s, t) ↔ cs = s ++ t ∧ n = byteSize s := by
  constructor
  · intro h
    fun_induction splitAt? n cs generalizing s with
    | case1 cs =>
      cases h
      exact ⟨rfl, rfl⟩
    | case2 => cases h
    | case3 n c cs hle ih =>
      obtain ⟨⟨front, back⟩, hsplit, hcons⟩ := Option.map_eq_some_iff.1 h
      cases hcons
      obtain ⟨rfl, hn⟩ := ih hsplit
      exact ⟨rfl, by rw [byteSize_cons, ← hn]; omega⟩
    | case4 => cases h
  · rintro ⟨rfl, rfl⟩
    exact splitAt?_append s t

theorem before?_append (s t : List Char) : before? (byteSize s) (s ++ t) = some s := by
  rw [before?, splitAt?_append]
  rfl

theorem from?_append (s t : List Char) : from? (byteSize s) (s ++ t) = some t := by
  rw [from?, splitAt?_append]
  rfl

/-- The inside of a text between two characters of one byte. -/
theorem interior?_eq {c d : Char} (hc : c.utf8Size = 1) (hd : d.utf8Size = 1) (s : List Char) :
    interior? (c :: (s ++ [d])) = some s := by
  simp [interior?, hc, hd]

end Formula.Text
