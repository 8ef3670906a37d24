import FineGrain.Proofs.AnonymousFunction.Skipping
/-!
String literals as texts. An escape is never read past the quote that ends its string, so a string
literal is read the same whatever stands behind it; one without escapes has the text between its quotes
for a value.
-/

namespace FineGrain.Grammar

open Scan AnonymousFunction

variable {c quote fence : Char} {n count size offset value : Nat} {pre text rest tail : List Char}

namespace Scan

/-- A quote, and so no part of any escape behind its first character. -/
def IsQuote (c : Char) : Prop := c = '"' ∨ c = '\''

theorem IsQuote.hexValue? (h : IsQuote fence) : hexValue? fence = none := by
  rcases h with rfl | rfl <;> rfl

theorem IsQuote.isOctal (h : IsQuote fence) : isOctal fence = false := by
  rcases h with rfl | rfl <;> rfl

theorem IsQuote.isDigit (h : IsQuote fence) : fence.isDigit = false := by
  rcases h with rfl | rfl <;> rfl

theorem IsQuote.ne (h : IsQuote fence) (hc : c ≠ '"' ∧ c ≠ '\'') : fence ≠ c := by
  rintro rfl
  exact h.elim hc.1 hc.2

theorem hexDigits_fence (h : IsQuote fence) : hexDigits n value (pre ++ fence :: tail) =
    (hexDigits n value pre).map fun (v, rest) => (v, rest ++ fence :: tail) := by
  induction n generalizing pre value with
  | zero => rfl
  | succ n ih =>
    cases pre with
    | nil => simp [hexDigits, h.hexValue?]
    | cons c pre =>
      rw [List.cons_append, hexDigits, hexDigits]
      cases hexValue? c with
      | none => rfl
      | some d => exact ih

theorem bracedHex_fence (h : IsQuote fence) : bracedHex value count (pre ++ fence :: tail) =
    (bracedHex value count pre).map fun (v, n, rest) => (v, n, rest ++ fence :: tail) := by
  induction pre generalizing value count with
  | nil =>
    have hbrace : (fence == '\x7d') = false := beq_false_of_ne (h.ne (by decide))
    simp [bracedHex, hbrace, h.hexValue?]
  | cons c pre ih =>
    rw [List.cons_append, bracedHex, bracedHex]
    split
    · split <;> rfl
    · cases hexValue? c with
      | none => rfl
      | some d => exact ih

theorem unicodeEscape_digits (h : text.head? ≠ some '\x7b') :
    unicodeEscape text = (hexDigits 4 0 text).map fun (v, rest) => (v, 4, rest) := by
  unfold unicodeEscape
  split
  · exact absurd rfl h
  · rfl

theorem unicodeEscape_fence (h : IsQuote fence) : unicodeEscape (pre ++ fence :: tail) =
    (unicodeEscape pre).map fun (v, n, rest) => (v, n, rest ++ fence :: tail) := by
  by_cases hbrace : pre.head? = some '\x7b'
  · obtain ⟨pre, rfl⟩ := List.head?_eq_some_iff.1 hbrace
    simp [unicodeEscape, bracedHex_fence h, Function.comp_def]
  · have hfence : (pre ++ fence :: tail).head? ≠ some '\x7b' := by
      cases pre with
      | nil => exact fun heq => h.ne (c := '\x7b') (by decide) (Option.some.inj heq)
      | cons c pre => exact hbrace
    rw [unicodeEscape_digits hbrace, unicodeEscape_digits hfence, hexDigits_fence h]
    simp [Function.comp_def]

theorem octalTail_fence (h : IsQuote fence) : octalTail n value size (pre ++ fence :: tail) =
    ((octalTail n value size pre).1, (octalTail n value size pre).2.1,
      (octalTail n value size pre).2.2 ++ fence :: tail) := by
  induction n generalizing pre value size with
  | zero => rfl
  | succ n ih =>
    cases pre with
    | nil => simp [octalTail, h.isOctal]
    | cons c pre =>
      rw [List.cons_append, octalTail, octalTail]
      split
      · exact ih
      · rfl

theorem lowHalf?_none (h : ¬ ['\\', 'u'] <+: text) : lowHalf? text = none := by
  unfold lowHalf?
  split
  · exact absurd ⟨_, rfl⟩ h
  · rfl

theorem lowHalf?_fence (h : IsQuote fence) : lowHalf? (pre ++ fence :: tail) =
    (lowHalf? pre).map fun (v, rest) => (v, rest ++ fence :: tail) := by
  by_cases hmark : ['\\', 'u'] <+: pre
  · obtain ⟨pre, rfl⟩ := hmark
    simp only [List.cons_append, List.nil_append, lowHalf?, hexDigits_fence h]
    cases hexDigits 4 0 pre with
    | none => rfl
    | some found =>
      obtain ⟨v, rest⟩ := found
      simp only [Option.map_some, Option.bind_eq_bind, Option.bind_some]
      split <;> rfl
  · have hfence : ¬ ['\\', 'u'] <+: pre ++ fence :: tail := by
      match pre with
      | [] => simp [List.cons_prefix_cons, (h.ne (c := '\\') (by decide)).symm]
      | [c] => simp [List.cons_prefix_cons, (h.ne (c := 'u') (by decide)).symm]
      | c :: d :: pre => simpa [List.cons_prefix_cons] using hmark
    rw [lowHalf?_none hmark, lowHalf?_none hfence]
    rfl

theorem escape_other (hletter : c ∉ ['n', 't', 'r', 'b', 'v', 'f', 'x', 'u'])
    (hline : ¬ (c = '\r' ∧ text.head? = some '\n')) : escape (c :: text) =
      if Identifier.isLineEnd c then ⟨[], c.utf8Size, text, true, true⟩
      else if isOctal c then
        let digits := if c ≤ '3' then 2 else 1
        let (v, size, after) := octalTail digits (c.toNat - '0'.toNat) 1 text
        ⟨[Char.ofNat v], size, after, true, c == '0' && !text.head?.any Char.isDigit⟩
      else if c == '8' || c == '9' then ⟨[c], 1, text, true, false⟩
      else ⟨[c], c.utf8Size, text, true, true⟩ := by
  rw [escape.eq_def]
  split
  case h_1 h => cases h
  case h_8 h => cases h; exact absurd ⟨rfl, rfl⟩ hline
  case h_11 h => cases h; cases text <;> rfl
  all_goals
    rename_i h
    cases h
    simp at hletter

/-- Behind its first character an escape is read up to a quote at most. -/
theorem escape_fence (h : IsQuote fence) (c : Char) : escape (c :: (pre ++ fence :: tail)) =
    { escape (c :: pre) with rest := (escape (c :: pre)).rest ++ fence :: tail } := by
  -- An escape looks at what follows it only for digits and for a line feed, and a fence is neither.
  by_cases hplain : c ∈ ['n', 't', 'r', 'b', 'v', 'f']
  · simp only [List.mem_cons, List.not_mem_nil, or_false] at hplain
    rcases hplain with rfl | rfl | rfl | rfl | rfl | rfl <;> rfl
  by_cases hx : c = 'x'
  · subst hx
    simp only [escape, hexDigits_fence h]
    cases hexDigits 2 0 pre <;> rfl
  by_cases hu : c = 'u'
  · subst hu
    simp only [escape, unicodeEscape_fence h]
    cases unicodeEscape pre with
    | none => rfl
    | some found =>
      obtain ⟨v, n, rest⟩ := found
      simp only [Option.map_some]
      split
      · rw [lowHalf?_fence h]
        cases lowHalf? rest <;> rfl
      · rfl
  by_cases hline : c = '\r' ∧ pre.head? = some '\n'
  · obtain ⟨rfl, hhead⟩ := hline
    obtain ⟨pre, rfl⟩ := List.head?_eq_some_iff.1 hhead
    rfl
  have hletter : c ∉ ['n', 't', 'r', 'b', 'v', 'f', 'x', 'u'] := by
    simp_all
  have hfence : ¬ (c = '\r' ∧ (pre ++ fence :: tail).head? = some '\n') := by
    cases pre with
    | nil => exact fun heq => h.ne (c := '\n') (by decide) (Option.some.inj heq.2)
    | cons d pre => exact hline
  have hdigit : (pre ++ fence :: tail).head?.any Char.isDigit = pre.head?.any Char.isDigit := by
    cases pre with
    | nil => exact h.isDigit
    | cons d pre => rfl
  rw [escape_other hletter hfence, escape_other hletter hline]
  dsimp only
  rw [octalTail_fence h, hdigit]
  split
  · rfl
  · split
    · rfl
    · split <;> rfl

/-- The text `body` of a string up to the quote in front of what is left, as it is read in front of any
other text too. -/
structure Spelled (quote : Char) (string : List Char) (text rest : List Char) (body : List Char) :
    Prop where
  split : text = body ++ quote :: rest
  read : ∀ n offset tail, body.length < n → ∃ next, next.rest = tail ∧
    readString quote n offset (body ++ quote :: tail) = (string, true, next)
  plain : '\\' ∉ body → string = body ∧ quote ∉ body

namespace Spelled

variable {string body : List Char}

theorem close : Spelled quote [] (quote :: rest) rest [] where
  split := rfl
  read n offset tail hn := by
    obtain ⟨n, rfl⟩ := Nat.exists_eq_succ_of_ne_zero (Nat.ne_zero_of_lt hn)
    exact ⟨⟨offset + 1, tail⟩, rfl, by simp [readString]⟩
  plain _ := ⟨rfl, List.not_mem_nil⟩

theorem char (hq : c ≠ quote) (hline : c ≠ '\n' ∧ c ≠ '\r') (hb : c ≠ '\\')
    (h : Spelled quote string text rest body) :
    Spelled quote (c :: string) (c :: text) rest (c :: body) where
  split := congrArg (c :: ·) h.split
  read n offset tail hn := by
    obtain ⟨n, rfl⟩ := Nat.exists_eq_succ_of_ne_zero (Nat.ne_zero_of_lt hn)
    obtain ⟨next, hnext, hread⟩ := h.read n (offset + c.utf8Size) tail (Nat.lt_of_succ_lt_succ hn)
    exact ⟨next, hnext, by simp [readString, hq, hline, hb, hread]⟩
  plain hbody := by
    rw [List.mem_cons, not_or] at hbody
    obtain ⟨hstring, hquote⟩ := h.plain hbody.2
    exact ⟨congrArg (c :: ·) hstring, by simp [Ne.symm hq, hquote]⟩

theorem escaped (hq : IsQuote quote) (hok : (escape (c :: text)).inString = true)
    (h : Spelled quote string (escape (c :: text)).rest rest body) :
    ∃ body, Spelled quote ((escape (c :: text)).value ++ string) ('\\' :: c :: text) rest body := by
  obtain ⟨more, hmore, -⟩ := escape_split c text
  have htext : text = more ++ body ++ quote :: rest := by
    rw [List.append_assoc, ← h.split]
    exact hmore
  -- What the escape reads lies before the closing quote, so it reads the same whatever follows the
  -- string.
  have hescape (tail : List Char) : escape (c :: (more ++ body ++ quote :: tail)) =
      { escape (c :: (more ++ body)) with
        rest := (escape (c :: (more ++ body))).rest ++ quote :: tail } := escape_fence hq c
  have hbody : (escape (c :: (more ++ body))).rest = body := by
    have hrest := congrArg Escape.rest (hescape rest)
    rw [← htext, h.split] at hrest
    exact (List.append_cancel_right hrest).symm
  have hvalue : (escape (c :: text)).value = (escape (c :: (more ++ body))).value := by
    rw [htext, hescape rest]
  have hinString : (escape (c :: (more ++ body))).inString = true := by
    rw [← hok, htext, hescape rest]
  refine ⟨'\\' :: c :: (more ++ body), ?_, ?_, ?_⟩
  · rw [htext]
    rfl
  · intro n offset tail hn
    obtain ⟨n, rfl⟩ := Nat.exists_eq_succ_of_ne_zero (Nat.ne_zero_of_lt hn)
    have hlength : body.length < n := by
      simp only [List.length_cons, List.length_append] at hn
      omega
    obtain ⟨next, hnext, hread⟩ :=
      h.read n (offset + 1 + (escape (c :: (more ++ body))).size) tail hlength
    have hquote : '\\' ≠ quote := (hq.ne (by decide)).symm
    refine ⟨next, hnext, ?_⟩
    rw [List.cons_append, List.cons_append, readString, hescape tail, hvalue]
    simp [hquote, hbody, hread, hinString]
  · intro hmem
    exact absurd List.mem_cons_self hmem

end Spelled

theorem spelled_of_readString {string : List Char} {next : Cursor} (hq : IsQuote quote)
    (h : readString quote n offset text = (string, true, next)) :
    ∃ body, Spelled quote string text next.rest body := by
  induction n generalizing offset text string with
  | zero => cases h
  | succ n ih =>
    cases text with
    | nil => cases h
    | cons c text =>
    rw [readString] at h
    -- The reader closes the string, refuses a line end, passes an escape, or takes a character as it is.
    split at h
    next hc =>
      cases beq_iff_eq.1 hc
      cases h
      exact ⟨[], .close⟩
    next hc =>
    split at h
    next => cases h
    next hline =>
    have hline : c ≠ '\n' ∧ c ≠ '\r' := by simpa using hline
    split at h
    next hb =>
      cases beq_iff_eq.1 hb
      cases text with
      | nil => simp [escape, badEscape] at h
      | cons d text =>
      obtain ⟨rfl, hok, hnext⟩ : _ ∧ _ ∧ _ := by simpa only [Prod.mk.injEq] using h
      obtain ⟨hok, hinString⟩ := Bool.and_eq_true_iff.1 hok
      obtain ⟨body, hbody⟩ := ih (Prod.ext rfl (Prod.ext hok hnext))
      exact hbody.escaped hq hinString
    next hb =>
      obtain ⟨rfl, hok, hnext⟩ : _ ∧ _ ∧ _ := by simpa only [Prod.mk.injEq] using h
      obtain ⟨body, hbody⟩ := ih (Prod.ext rfl (Prod.ext hok hnext))
      exact ⟨c :: body, hbody.char (by simpa using hc) hline (by simpa using hb)⟩

end Scan

/-- The value of the string at the front of a text, and what is left behind it. -/
def stringAt? : List Char → Option (List Char × List Char)
  | [] => none
  | quote :: rest =>
      if quote == '"' || quote == '\'' then
        match readString quote (rest.length + 1) 0 rest with
        | (value, true, next) => some (value, next.rest)
        | (_, false, _) => none
      else none

/-- The value of a text that is a string from its one end to the other. -/
def literal? (raw : List Char) : Option (List Char) :=
  match stringAt? raw with
  | some (value, []) => some value
  | _ => none

/-- What is known of a string literal and its value. -/
structure Literal (raw value : List Char) (quote : Char) (body : List Char) : Prop where
  isQuote : IsQuote quote
  split : raw = quote :: (body ++ [quote])
  read : ∀ tail, stringAt? (raw ++ tail) = some (value, tail)
  plain : '\\' ∉ raw → value = body ∧ quote ∉ body

theorem literal_of_literal? {raw value : List Char} (h : literal? raw = some value) :
    ∃ quote body, Literal raw value quote body := by
  rw [literal?] at h
  split at h
  next hread =>
    cases h
    cases raw with
    | nil => cases hread
    | cons quote rest =>
    rw [stringAt?] at hread
    split at hread
    next hquote =>
      have hq : IsQuote quote := by simpa [IsQuote] using hquote
      split at hread
      next value' next hstring =>
        obtain ⟨rfl, hnext⟩ : value' = value ∧ next.rest = [] := by simpa using hread
        obtain ⟨body, hbody⟩ := spelled_of_readString hq hstring
        have hsplit := hbody.split
        rw [hnext] at hsplit
        refine ⟨quote, body, hq, by rw [hsplit], fun tail => ?_, fun hmem => ?_⟩
        · obtain ⟨next', hnext', hread'⟩ := hbody.read ((body ++ quote :: tail).length + 1) 0 tail
            (by rw [List.length_append]; omega)
          have hall : rest ++ tail = body ++ quote :: tail := by rw [hsplit]; simp
          rw [List.cons_append, hall, stringAt?, if_pos hquote, hread']
          exact congrArg (fun tail => some (value', tail)) hnext'
        · refine hbody.plain fun hin => hmem ?_
          rw [hsplit]
          exact List.mem_cons_of_mem _ (List.mem_append_left _ hin)
      next => cases hread
    next => cases hread
  next => cases h

end FineGrain.Grammar
