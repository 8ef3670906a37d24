import FineGrain.Text.Span
/-!
Slices of a text by bytes: what a slice is of, and that slices which meet make up one slice.
-/

namespace FineGrain.Text

variable {text pre pre' rest rest' mid mid' : List Char} {a b c n : Nat}

theorem byteLength_append (l l' : List Char) :
    byteLength (l ++ l') = byteLength l + byteLength l' := by
  induction l with
  | nil => simp [byteLength]
  | cons c l ih =>
    simp only [List.cons_append, byteLength, ih]
    omega

theorem byteLength_eq_zero (h : byteLength text = 0) : text = [] := by
  cases text with
  | nil => rfl
  | cons c rest =>
    have hc := c.utf8Size_pos
    simp only [byteLength] at h
    omega

theorem append_inj_byteLength (h : pre ++ rest = pre' ++ rest')
    (hn : byteLength pre = byteLength pre') : pre = pre' ∧ rest = rest' := by
  induction pre generalizing pre' with
  | nil =>
    obtain rfl := byteLength_eq_zero hn.symm
    exact ⟨rfl, h⟩
  | cons c pre ih =>
    have hc := c.utf8Size_pos
    cases pre' with
    | nil =>
      simp only [byteLength] at hn
      omega
    | cons c' pre' =>
      simp only [List.cons_append, List.cons.injEq] at h
      obtain ⟨rfl, h⟩ := h
      simp only [byteLength] at hn
      obtain ⟨rfl, rfl⟩ := ih h (by omega)
      exact ⟨rfl, rfl⟩

theorem byteLength_cons_succ (c : Char) (pre : List Char) : ∃ n, byteLength (c :: pre) = n + 1 ∧
    c.utf8Size ≤ n + 1 ∧ n + 1 - c.utf8Size = byteLength pre := by
  have hc := c.utf8Size_pos
  refine ⟨byteLength (c :: pre) - 1, ?_, ?_, ?_⟩ <;> simp only [byteLength] <;> omega

theorem dropBytes_append (pre rest : List Char) :
    dropBytes (byteLength pre) (pre ++ rest) = some rest := by
  induction pre with
  | nil => simp [byteLength, dropBytes]
  | cons c pre ih =>
    obtain ⟨n, hn, hle, hsub⟩ := byteLength_cons_succ c pre
    rw [hn, List.cons_append, dropBytes, if_pos hle, hsub, ih]

theorem takeBytes_append (pre rest : List Char) :
    takeBytes (byteLength pre) (pre ++ rest) = some pre := by
  induction pre with
  | nil => simp [byteLength, takeBytes]
  | cons c pre ih =>
    obtain ⟨n, hn, hle, hsub⟩ := byteLength_cons_succ c pre
    rw [hn, List.cons_append, takeBytes, if_pos hle, hsub, ih, Option.map_some]

theorem dropBytes_eq_some (h : dropBytes n text = some rest) :
    ∃ pre, text = pre ++ rest ∧ byteLength pre = n := by
  induction text generalizing n with
  | nil =>
    cases n with
    | zero => exact ⟨[], by simpa [dropBytes] using h, rfl⟩
    | succ n => simp [dropBytes] at h
  | cons c text ih =>
    cases n with
    | zero => exact ⟨[], by simpa [dropBytes] using h, rfl⟩
    | succ n =>
      simp only [dropBytes] at h
      split at h
      · obtain ⟨pre, rfl, hpre⟩ := ih h
        refine ⟨c :: pre, rfl, ?_⟩
        simp only [byteLength]
        omega
      · cases h

theorem takeBytes_eq_some (h : takeBytes n text = some pre) :
    ∃ rest, text = pre ++ rest ∧ byteLength pre = n := by
  induction text generalizing n pre with
  | nil =>
    cases n with
    | zero =>
      obtain rfl : pre = [] := by simpa [takeBytes] using h.symm
      exact ⟨[], rfl, rfl⟩
    | succ n => simp [takeBytes] at h
  | cons c text ih =>
    cases n with
    | zero =>
      obtain rfl : pre = [] := by simpa [takeBytes] using h.symm
      exact ⟨c :: text, rfl, rfl⟩
    | succ n =>
      simp only [takeBytes] at h
      split at h
      · obtain ⟨pre', hpre', rfl⟩ := Option.map_eq_some_iff.1 h
        obtain ⟨rest, rfl, hn⟩ := ih hpre'
        refine ⟨rest, rfl, ?_⟩
        simp only [byteLength]
        omega
      · cases h

theorem slice?_eq_some_iff : slice? text ⟨a, b⟩ = some mid ↔
    ∃ pre rest, text = pre ++ mid ++ rest ∧ byteLength pre = a ∧ a + byteLength mid = b := by
  constructor
  · intro h
    simp only [slice?] at h
    split at h
    · obtain ⟨tail, htail, hmid⟩ := Option.bind_eq_some_iff.1 h
      obtain ⟨pre, rfl, hpre⟩ := dropBytes_eq_some htail
      obtain ⟨rest, rfl, hb⟩ := takeBytes_eq_some hmid
      exact ⟨pre, rest, by simp, hpre, by omega⟩
    · cases h
  · rintro ⟨pre, rest, rfl, rfl, rfl⟩
    have hsub : byteLength pre + byteLength mid - byteLength pre = byteLength mid := by omega
    simp only [slice?, Nat.le_add_right, if_true, List.append_assoc, dropBytes_append,
      Option.bind_some, hsub, takeBytes_append]

theorem slice?_trans (h : slice? text ⟨a, b⟩ = some mid) (h' : slice? text ⟨b, c⟩ = some mid') :
    slice? text ⟨a, c⟩ = some (mid ++ mid') := by
  obtain ⟨pre, rest, htext, hpre, hb⟩ := slice?_eq_some_iff.1 h
  obtain ⟨pre', rest', htext', hpre', hc⟩ := slice?_eq_some_iff.1 h'
  have hsame : (pre ++ mid) ++ rest = pre' ++ (mid' ++ rest') := by
    rw [← htext, htext', List.append_assoc]
  obtain ⟨rfl, rfl⟩ := append_inj_byteLength hsame (by rw [byteLength_append]; omega)
  exact slice?_eq_some_iff.2 ⟨pre, rest', by simp [htext], hpre, by
    rw [byteLength_append]
    omega⟩

/-- Whether a character starts, or the text ends, at an offset. -/
def isBoundary (text : List Char) (n : Nat) : Bool := (dropBytes n text).isSome

theorem exists_slice (ha : isBoundary text a = true) (hb : isBoundary text b = true)
    (hab : a ≤ b) : ∃ mid, slice? text ⟨a, b⟩ = some mid := by
  obtain ⟨rest, ha⟩ := Option.isSome_iff_exists.1 ha
  obtain ⟨rest', hb⟩ := Option.isSome_iff_exists.1 hb
  obtain ⟨pre, rfl, hpre⟩ := dropBytes_eq_some ha
  obtain ⟨pre', htext, hpre'⟩ := dropBytes_eq_some hb
  rcases List.append_eq_append_iff.1 htext with ⟨mid, rfl, rfl⟩ | ⟨mid, rfl, rfl⟩
  · rw [byteLength_append] at hpre'
    exact ⟨mid, slice?_eq_some_iff.2 ⟨pre, rest', by simp, hpre, by omega⟩⟩
  · rw [byteLength_append] at hpre
    obtain rfl : mid = [] := byteLength_eq_zero (by omega)
    exact ⟨[], slice?_eq_some_iff.2 ⟨pre', rest, by simp, by simp [byteLength] at *; omega,
      by simp [byteLength] at *; omega⟩⟩

theorem slice?_self (ha : isBoundary text a = true) : slice? text ⟨a, a⟩ = some [] := by
  obtain ⟨rest, ha⟩ := Option.isSome_iff_exists.1 ha
  obtain ⟨pre, rfl, hpre⟩ := dropBytes_eq_some ha
  exact slice?_eq_some_iff.2 ⟨pre, rest, by simp, hpre, rfl⟩

end FineGrain.Text
