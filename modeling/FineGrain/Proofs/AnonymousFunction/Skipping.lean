import FineGrain.AnonymousFunction
import FineGrain.Grammar.Token.Scan
import FineGrain.Proofs.Text.Slice
/-!
Where the naming scan and the token reader agree on the extent of skipped text. The scan knows an
escape as a backslash and one character; the reader knows them all. The two still end a template
and a block comment at the same place, and a string too unless a carriage return and a line feed
continue a line in it: the scan takes that line feed for the end of a string left open.
-/

namespace FineGrain.AnonymousFunction

open Grammar Grammar.Scan Text

variable {c quote : Char} {n size offset value : Nat} {rest after more text : List Char}

/-! ### The text of an escape -/

/-- The digits of escapes and the braces around them. -/
def isEscapeDigit (c : Char) : Bool := isHex c || c == '\x7b' || c == '\x7d'

/-- What an escape can hold behind the character that the backslash hides: digits, and the mark of
a second escape that completes a surrogate pair. -/
inductive Trailing : List Char → Prop
  | nil : Trailing []
  | digit {d : Char} {more : List Char} (hd : isEscapeDigit d) (h : Trailing more) :
      Trailing (d :: more)
  | mark {more : List Char} (h : Trailing more) : Trailing ('\\' :: 'u' :: more)

theorem Trailing.append (h : Trailing text) (h' : Trailing more) : Trailing (text ++ more) := by
  induction h with
  | nil => exact h'
  | digit hd _ ih => exact .digit hd ih
  | mark _ ih => exact .mark ih

theorem isEscapeDigit_of_isHex (h : isHex c) : isEscapeDigit c := by
  simp [isEscapeDigit, h]

theorem ne_of_isEscapeDigit {x : Char} (h : isEscapeDigit c) (hx : isEscapeDigit x = false) :
    c ≠ x := by
  rintro rfl
  exact Bool.false_ne_true (hx.symm.trans h)

theorem utf8Size_of_isHex (h : isHex c) : c.utf8Size = 1 := by
  refine Char.utf8Size_eq_one_iff.2 ?_
  rw [isHex, hexValue?] at h
  split at h
  next hd =>
    have hd := decide_eq_true_iff.1 (Bool.and_eq_true_iff.1 hd).2
    exact UInt32.le_trans hd (by decide)
  next =>
    split at h
    next hl =>
      have hl := decide_eq_true_iff.1 (Bool.and_eq_true_iff.1 hl).2
      exact UInt32.le_trans hl (by decide)
    next =>
      split at h
      next hu =>
        have hu := decide_eq_true_iff.1 (Bool.and_eq_true_iff.1 hu).2
        exact UInt32.le_trans hu (by decide)
      next => cases h

theorem isHex_of_isOctal (h : isOctal c) : isHex c := by
  rw [isOctal, Bool.and_eq_true_iff, decide_eq_true_iff, decide_eq_true_iff] at h
  have hd : c.isDigit := by
    simp only [Char.isDigit, Bool.and_eq_true_iff, decide_eq_true_iff]
    exact ⟨h.1, UInt32.le_trans h.2 (by decide)⟩
  rw [isHex, hexValue?, if_pos hd]
  rfl

theorem hexDigits_split (h : hexDigits n value text = some (size, after)) :
    ∃ more, text = more ++ after ∧ byteLength more = n ∧ Trailing more := by
  induction n generalizing value text with
  | zero =>
    cases h
    exact ⟨[], rfl, rfl, .nil⟩
  | succ n ih =>
    cases text with
    | nil => cases h
    | cons c text =>
      obtain ⟨d, hd, h⟩ := Option.bind_eq_some_iff.1 h
      obtain ⟨more, rfl, hn, hmore⟩ := ih h
      have hc : isHex c := Option.isSome_of_mem hd
      exact ⟨c :: more, rfl, by rw [byteLength, utf8Size_of_isHex hc, hn, Nat.add_comm],
        .digit (isEscapeDigit_of_isHex hc) hmore⟩

theorem bracedHex_split {count : Nat} (h : bracedHex value n text = some (size, count, after)) :
    ∃ more, text = more ++ after ∧ n + byteLength more = count + 1 ∧ Trailing more := by
  induction text generalizing value n with
  | nil => cases h
  | cons c text ih =>
    rw [bracedHex] at h
    split at h
    next hc =>
      split at h
      · cases h
      · cases h
        rw [beq_iff_eq.1 hc]
        exact ⟨['\x7d'], rfl, rfl, .digit rfl .nil⟩
    next =>
      obtain ⟨d, hd, h⟩ := Option.bind_eq_some_iff.1 h
      obtain ⟨more, rfl, hn, hmore⟩ := ih h
      have hc : isHex c := Option.isSome_of_mem hd
      refine ⟨c :: more, rfl, ?_, .digit (isEscapeDigit_of_isHex hc) hmore⟩
      rw [byteLength, utf8Size_of_isHex hc]
      omega

theorem unicodeEscape_split {count : Nat}
    (h : unicodeEscape text = some (value, count, after)) :
    ∃ more, text = more ++ after ∧ byteLength more = count ∧ Trailing more := by
  unfold unicodeEscape at h
  split at h
  next rest =>
    obtain ⟨⟨v, n, rest'⟩, hb, h⟩ := Option.map_eq_some_iff.1 h
    cases h
    obtain ⟨more, rfl, hn, hmore⟩ := bracedHex_split hb
    refine ⟨'\x7b' :: more, rfl, ?_, .digit rfl hmore⟩
    rw [byteLength, show Char.utf8Size '\x7b' = 1 from rfl]
    omega
  next =>
    obtain ⟨⟨v, rest'⟩, hb, h⟩ := Option.map_eq_some_iff.1 h
    cases h
    exact hexDigits_split hb

theorem octalTail_split : ∃ more, text = more ++ (octalTail n value size text).2.2 ∧
    (octalTail n value size text).2.1 = size + byteLength more ∧ Trailing more := by
  fun_induction octalTail n value size text with
  | case1 => exact ⟨[], rfl, rfl, .nil⟩
  | case2 => exact ⟨[], rfl, rfl, .nil⟩
  | case3 value size n c rest hc ih =>
    obtain ⟨more, hrest, hn, hmore⟩ := ih
    have hhex := isHex_of_isOctal hc
    refine ⟨c :: more, congrArg (c :: ·) hrest, ?_, .digit (isEscapeDigit_of_isHex hhex) hmore⟩
    rw [hn, byteLength, utf8Size_of_isHex hhex, Nat.add_assoc]
  | case4 => exact ⟨[], rfl, rfl, .nil⟩

theorem lowHalf?_split (h : lowHalf? text = some (value, after)) :
    ∃ more, text = more ++ after ∧ byteLength more = 6 ∧ Trailing more := by
  unfold lowHalf? at h
  split at h
  next rest =>
    obtain ⟨⟨v, rest'⟩, hb, h⟩ := Option.bind_eq_some_iff.1 h
    dsimp only at h
    split at h
    · cases h
      obtain ⟨more, rfl, hn, hmore⟩ := hexDigits_split hb
      exact ⟨'\\' :: 'u' :: more, rfl, by simp only [byteLength, hn]; rfl, .mark hmore⟩
    · cases h
  next => cases h

theorem escape_split (c : Char) (rest : List Char) :
    ∃ more, rest = more ++ (escape (c :: rest)).rest ∧
      (escape (c :: rest)).size = c.utf8Size + byteLength more ∧
      (Trailing more ∨ c = '\r' ∧ more = ['\n']) := by
  rw [escape.eq_def]
  split
  case h_1 h => cases h
  case h_2 h | h_3 h | h_4 h | h_5 h | h_6 h | h_7 h =>
    cases h
    exact ⟨[], rfl, rfl, .inl .nil⟩
  case h_8 h =>
    cases h
    exact ⟨['\n'], rfl, rfl, .inr ⟨rfl, rfl⟩⟩
  case h_9 h =>
    cases h
    split
    next hx =>
      obtain ⟨more, rfl, hn, hmore⟩ := hexDigits_split hx
      exact ⟨more, rfl, by rw [hn]; rfl, .inl hmore⟩
    next => exact ⟨[], rfl, rfl, .inl .nil⟩
  -- A surrogate pair takes two escapes; the second one counts only if it completes the first.
  case h_10 h =>
    cases h
    split
    next => exact ⟨[], rfl, rfl, .inl .nil⟩
    next v count after hx =>
      obtain ⟨more, rfl, hn, hmore⟩ := unicodeEscape_split hx
      have hcount : count + 1 = Char.utf8Size 'u' + byteLength more := by
        rw [hn, Nat.add_comm]
        rfl
      split
      next hpair =>
        have hfour : count = 4 := beq_iff_eq.1 (Bool.and_eq_true_iff.1 hpair).2
        split
        next low after' hlow =>
          obtain ⟨more', rfl, hn', hmore'⟩ := lowHalf?_split hlow
          refine ⟨more ++ more', (List.append_assoc ..).symm, ?_, .inl (hmore.append hmore')⟩
          rw [byteLength_append, hn', hn, hfour]
          rfl
        next => exact ⟨more, rfl, by rw [← hcount, hfour], .inl hmore⟩
      next => exact ⟨more, rfl, hcount, .inl hmore⟩
  case h_11 h =>
    cases h
    split
    next => exact ⟨[], rfl, rfl, .inl .nil⟩
    next =>
      split
      next hc =>
        have hsize := utf8Size_of_isHex (isHex_of_isOctal hc)
        obtain ⟨more, hrest, hn, hmore⟩ := octalTail_split
        exact ⟨more, hrest, by rw [hsize]; exact hn, .inl hmore⟩
      next =>
        split
        next hc =>
          have hsize : c.utf8Size = 1 := by
            rcases Bool.or_eq_true_iff.1 hc with hc | hc <;> rw [beq_iff_eq.1 hc] <;> rfl
          exact ⟨[], rfl, hsize.symm, .inl .nil⟩
        next => exact ⟨[], rfl, rfl, .inl .nil⟩

/-! ### Passing it -/

theorem skipQuoted_char (hb : c ≠ '\\') (hn : c ≠ '\n') (hq : c ≠ quote) :
    skipQuoted quote offset (c :: rest) = skipQuoted quote (offset + c.utf8Size) rest := by
  rw [skipQuoted.eq_def]
  split
  case h_1 h => cases h
  case h_2 h => cases h; exact absurd rfl hb
  case h_3 h => cases h; rw [if_neg (by simpa using hn), if_neg (by simpa using hq)]

theorem skipTemplate_char (hb : c ≠ '\\') (hd : c ≠ '$' ∨ rest.head? ≠ some '\x7b')
    (hq : c ≠ '\x60') :
    skipTemplate offset (c :: rest) = skipTemplate (offset + c.utf8Size) rest := by
  rw [skipTemplate.eq_def]
  split
  case h_1 h => cases h
  case h_2 h => cases h; exact absurd rfl hb
  case h_3 h => cases h; exact absurd rfl (hd.resolve_left (fun h => h rfl))
  case h_4 h => cases h; rw [if_neg (by simpa using hq)]

theorem skipQuoted_trailing (hq : quote = '"' ∨ quote = '\'') (h : Trailing more) :
    skipQuoted quote offset (more ++ rest) = skipQuoted quote (offset + byteLength more) rest := by
  induction h generalizing offset with
  | nil => rfl
  | @digit d more hd _ ih =>
    have hne {x : Char} := ne_of_isEscapeDigit (x := x) hd
    rw [List.cons_append, skipQuoted_char (hne (by decide)) (hne (by decide)), ih, byteLength,
      Nat.add_assoc]
    rcases hq with rfl | rfl <;> exact hne (by decide)
  | mark _ ih =>
    rw [List.cons_append, List.cons_append, skipQuoted, ih, byteLength, byteLength]
    congr 1
    change offset + 1 + 1 + _ = offset + (1 + (1 + _))
    omega

theorem skipTemplate_trailing (h : Trailing more) :
    skipTemplate offset (more ++ rest) = skipTemplate (offset + byteLength more) rest := by
  induction h generalizing offset with
  | nil => rfl
  | @digit d more hd _ ih =>
    have hne {x : Char} := ne_of_isEscapeDigit (x := x) hd
    rw [List.cons_append, skipTemplate_char (hne (by decide)) (.inl (hne (by decide)))
      (hne (by decide)), ih, byteLength, Nat.add_assoc]
  | mark _ ih =>
    rw [List.cons_append, List.cons_append, skipTemplate, ih, byteLength, byteLength]
    congr 1
    change offset + 1 + 1 + _ = offset + (1 + (1 + _))
    omega

theorem skipTemplate_escape : skipTemplate offset ('\\' :: c :: rest) =
    skipTemplate (offset + 1 + (escape (c :: rest)).size) (escape (c :: rest)).rest := by
  obtain ⟨more, hrest, hsize, hmore⟩ := escape_split c rest
  rw [skipTemplate]
  generalize escape (c :: rest) = e at *
  subst hrest
  rw [hsize, ← Nat.add_assoc]
  rcases hmore with hmore | ⟨rfl, rfl⟩
  · exact skipTemplate_trailing hmore
  · exact skipTemplate_char (by decide) (.inl (by decide)) (by decide)

/-! ### Templates -/

theorem skipTemplate_of_closed {ok : Bool} (h : (readTemplate n ok offset rest).closed) :
    skipTemplate offset rest = ((readTemplate n ok offset rest).opens,
      ⟨(readTemplate n ok offset rest).next.offset, (readTemplate n ok offset rest).next.rest⟩) := by
  fun_induction readTemplate n ok offset rest with
  | case1 => cases h
  | case2 => cases h
  | case3 n ok offset c rest hc =>
    cases beq_iff_eq.1 hc
    rfl
  | case4 n ok offset c rest hc hb e ih =>
    cases beq_iff_eq.1 hb
    cases rest with
    | nil =>
      have hopen : (readTemplate n (ok && e.inTemplate) (offset + 1 + e.size) e.rest).closed = false := by
        cases n <;> rfl
      exact absurd h (by simp [hopen])
    | cons d rest => rw [skipTemplate_escape, ih h]
  | case5 => rfl
  | case6 n ok offset c rest hc hb hd ih =>
    rw [skipTemplate_char (by simpa using hb) ?_ (by simpa using hc), ih h]
    refine Decidable.or_iff_not_imp_left.2 fun hdollar hhead => ?_
    obtain ⟨tail, htail⟩ := List.head?_eq_some_iff.1 hhead
    exact hd tail (Decidable.not_not.1 hdollar) htail

/-! ### Strings -/

theorem infix_cons_cons {α : Type} {a b x : α} {l : List α} :
    [a, b] <:+: x :: l ↔ x = a ∧ l.head? = some b ∨ [a, b] <:+: l := by
  rw [List.infix_cons_iff, List.cons_prefix_cons, eq_comm (a := a)]
  cases l <;> simp [List.cons_prefix_cons, eq_comm (a := b)]

theorem head?_trailing_append (h : Trailing more) (hrest : rest.head? ≠ some '\n') :
    (more ++ rest).head? ≠ some '\n' := by
  cases h with
  | nil => exact hrest
  | digit hd => exact fun h => ne_of_isEscapeDigit hd (by decide) (Option.some.inj h)
  | mark => exact fun h => by cases h

theorem infix_trailing_append (h : Trailing more) :
    ['\r', '\n'] <:+: more ++ rest ↔ ['\r', '\n'] <:+: rest := by
  induction h with
  | nil => exact Iff.rfl
  | digit hd _ ih =>
    rw [List.cons_append, infix_cons_cons, ih]
    exact or_iff_right fun h => ne_of_isEscapeDigit hd (by decide) h.1
  | mark _ ih =>
    rw [List.cons_append, List.cons_append, infix_cons_cons, infix_cons_cons, ih]
    simp

/-- The text `body` of a string up to the quote before `next`, and when the scan gets there too. -/
structure Quoted (quote : Char) (offset : Nat) (rest : List Char) (next : Cursor)
    (body : List Char) : Prop where
  split : rest = body ++ quote :: next.rest
  extent : next.offset = offset + byteLength body + 1
  head : body.head? ≠ some '\n'
  passed : skipQuoted quote offset rest = ⟨next.offset, next.rest⟩ ↔ ¬ ['\r', '\n'] <:+: body

namespace Quoted

variable {next : Cursor} {body : List Char}

theorem close (hq : quote = '"' ∨ quote = '\'') :
    Quoted quote offset (quote :: rest) ⟨offset + 1, rest⟩ [] := by
  refine ⟨rfl, rfl, by simp, iff_of_true ?_ (by simp)⟩
  rcases hq with rfl | rfl <;> rfl

theorem char (hb : c ≠ '\\') (hn : c ≠ '\n') (hr : c ≠ '\r') (hq : c ≠ quote)
    (h : Quoted quote (offset + c.utf8Size) rest next body) :
    Quoted quote offset (c :: rest) next (c :: body) := by
  refine ⟨congrArg (c :: ·) h.split, ?_, fun hc => hn (Option.some.inj hc), ?_⟩
  · rw [h.extent, byteLength, Nat.add_assoc offset]
  · rw [skipQuoted_char hb hn hq, h.passed, infix_cons_cons]
    exact not_congr (or_iff_right fun hc => hr hc.1).symm

theorem escaped (hq : quote = '"' ∨ quote = '\'')
    (h : Quoted quote (offset + 1 + (escape (c :: rest)).size) (escape (c :: rest)).rest next body) :
    ∃ body, Quoted quote offset ('\\' :: c :: rest) next body := by
  obtain ⟨more, hrest, hsize, hmore⟩ := escape_split c rest
  generalize escape (c :: rest) = e at *
  subst hrest
  have hsplit : '\\' :: c :: (more ++ e.rest) = ('\\' :: c :: (more ++ body)) ++ quote :: next.rest := by
    rw [h.split]
    simp
  have hoffset : next.offset = offset + byteLength ('\\' :: c :: (more ++ body)) + 1 := by
    rw [h.extent, hsize, byteLength, byteLength, byteLength_append, show Char.utf8Size '\\' = 1 from rfl]
    omega
  refine ⟨'\\' :: c :: (more ++ body), hsplit, hoffset, by simp, ?_⟩
  rcases hmore with hmore | ⟨rfl, rfl⟩
  · have hnot : ¬ (c = '\r' ∧ (more ++ body).head? = some '\n') :=
      fun hc => head?_trailing_append hmore h.head hc.2
    rw [skipQuoted, skipQuoted_trailing hq hmore, Nat.add_assoc _ _ (byteLength more), ← hsize, h.passed,
      infix_cons_cons, infix_cons_cons, or_iff_right hnot, infix_trailing_append hmore]
    simp
  -- The scan has passed the carriage return only, and breaks off before the line feed.
  · refine iff_of_false (fun hpassed => ?_) (not_not_intro ⟨['\\'], body, by simp⟩)
    have hstop : skipQuoted quote offset ('\\' :: '\r' :: (['\n'] ++ e.rest)) =
      ⟨offset + 1 + Char.utf8Size '\r', '\n' :: e.rest⟩ := rfl
    have hlt : offset + 1 + Char.utf8Size '\r' = next.offset :=
      congrArg Place.offset (hstop.symm.trans hpassed)
    rw [hoffset, byteLength, byteLength] at hlt
    have hsize : Char.utf8Size '\\' = 1 := rfl
    omega

end Quoted

theorem quoted_of_readString {string : List Char} {next : Cursor} (hq : quote = '"' ∨ quote = '\'')
    (h : readString quote n offset rest = (string, true, next)) :
    ∃ body, Quoted quote offset rest next body := by
  induction n generalizing offset rest string with
  | zero => cases h
  | succ n ih =>
    cases rest with
    | nil => cases h
    | cons c rest =>
    rw [readString] at h
    split at h
    next hc =>
      cases beq_iff_eq.1 hc
      cases h
      exact ⟨[], .close hq⟩
    next hc =>
    split at h
    next => cases h
    next hline =>
    obtain ⟨hn, hr⟩ : c ≠ '\n' ∧ c ≠ '\r' := by simpa using hline
    split at h
    next hb =>
      cases beq_iff_eq.1 hb
      cases rest with
      | nil => simp [escape, badEscape] at h
      | cons d rest =>
      obtain ⟨hvalue, hok, hnext⟩ : _ ∧ _ ∧ _ := by simpa only [Prod.mk.injEq] using h
      have hok := (Bool.and_eq_true_iff.1 hok).1
      obtain ⟨body, hbody⟩ := ih (Prod.ext rfl (Prod.ext hok hnext))
      exact hbody.escaped hq
    next hb =>
      obtain ⟨hvalue, hok, hnext⟩ : _ ∧ _ ∧ _ := by simpa only [Prod.mk.injEq] using h
      obtain ⟨body, hbody⟩ := ih (Prod.ext rfl (Prod.ext hok hnext))
      exact ⟨c :: body, hbody.char (by simpa using hb) hn hr (by simpa using hc)⟩

/-! ### Comments -/

theorem skipBlockComment_char (h : c ≠ '*' ∨ rest.head? ≠ some '/') :
    skipBlockComment offset (c :: rest) = skipBlockComment (offset + c.utf8Size) rest := by
  rw [skipBlockComment.eq_def]
  split
  case h_1 h => cases h
  case h_2 heq => cases heq; exact absurd rfl (h.resolve_left fun h => h rfl)
  case h_3 h => cases h; rfl

theorem skipGaps_block_char {script lineEnd : Bool} (h : c ≠ '*' ∨ rest.head? ≠ some '/') :
    skipGaps script .block lineEnd offset (c :: rest) =
      skipGaps script .block (lineEnd || Identifier.isLineEnd c) (offset + c.utf8Size) rest := by
  rw [skipGaps.eq_def]
  split
  case h_3 heq => cases heq; exact absurd rfl (h.resolve_left fun h => h rfl)
  case h_4 heq => cases heq; rfl
  all_goals contradiction

theorem skipGaps_block (script lineEnd : Bool) (offset : Nat) (h : ['*', '/'] <:+: rest) :
    ∃ lineEnd', skipGaps script .block lineEnd offset rest =
      skipGaps script .code lineEnd' (skipBlockComment offset rest).offset
        (skipBlockComment offset rest).rest := by
  induction rest generalizing lineEnd offset with
  | nil => simp at h
  | cons c rest ih =>
    by_cases hend : c = '*' ∧ rest.head? = some '/'
    · obtain ⟨rfl, hhead⟩ := hend
      obtain ⟨tail, rfl⟩ := List.head?_eq_some_iff.1 hhead
      exact ⟨lineEnd, rfl⟩
    · obtain ⟨lineEnd', h'⟩ := ih (lineEnd || Identifier.isLineEnd c) (offset + c.utf8Size)
        ((infix_cons_cons.1 h).resolve_left hend)
      have hchar := Decidable.not_and_iff_not_or_not.1 hend
      exact ⟨lineEnd', by rw [skipBlockComment_char hchar, skipGaps_block_char hchar, h']⟩

theorem skipWhile_append {q : Char → Bool} (htext : ∀ c ∈ text, q c = true)
    (hnext : ∀ c ∈ rest.head?, q c = false) :
    Place.skipWhile q offset (text ++ rest) = ⟨offset + byteLength text, rest⟩ := by
  induction text generalizing offset with
  | nil =>
    cases rest with
    | nil => rfl
    | cons c rest => rw [List.nil_append, Place.skipWhile, if_neg (by simpa using hnext c rfl)]; rfl
  | cons c text ih =>
    obtain ⟨hc, htext⟩ := List.forall_mem_cons.1 htext
    rw [List.cons_append, Place.skipWhile, if_pos hc, ih htext, byteLength, Nat.add_assoc]

theorem skipWhile_line (h : ∀ c ∈ text, c ≠ '\n') (hrest : rest = [] ∨ rest.head? = some '\n') :
    Place.skipWhile (· != '\n') offset (text ++ rest) = ⟨offset + byteLength text, rest⟩ := by
  apply skipWhile_append
  · intro c hc
    exact bne_iff_ne.2 (h c hc)
  · intro c hc
    rcases hrest with rfl | hrest
    · cases hc
    · rw [hrest] at hc
      cases hc
      rfl

theorem skipGaps_line_text {script lineEnd : Bool}
    (h : ∀ c ∈ text, Identifier.isLineEnd c = false) :
    skipGaps script .line lineEnd offset (text ++ rest) =
      skipGaps script .line lineEnd (offset + byteLength text) rest := by
  induction text generalizing offset with
  | nil => rfl
  | cons c text ih =>
    have hstep : skipGaps script .line lineEnd offset (c :: (text ++ rest)) =
        skipGaps script (if Identifier.isLineEnd c then .code else .line)
          (lineEnd || Identifier.isLineEnd c) (offset + c.utf8Size) (text ++ rest) := rfl
    rw [List.cons_append, hstep, h c List.mem_cons_self, Bool.or_false, if_neg Bool.false_ne_true,
      ih fun d hd => h d (List.mem_cons_of_mem _ hd), byteLength, Nat.add_assoc]

theorem skipGaps_line (script lineEnd : Bool) (offset : Nat)
    (h : ∀ c ∈ text, Identifier.isLineEnd c = false)
    (hrest : rest = [] ∨ rest.head? = some '\n' ∨ ['\r', '\n'] <+: rest) :
    ∃ lineEnd', skipGaps script .line lineEnd offset (text ++ rest) =
      skipGaps script .code lineEnd' (Place.skipWhile (· != '\n') offset (text ++ rest)).offset
        (Place.skipWhile (· != '\n') offset (text ++ rest)).rest := by
  have hn : ∀ c ∈ text, c ≠ '\n' := by
    rintro c hc rfl
    cases h _ hc
  rw [skipGaps_line_text h]
  rcases hrest with rfl | hrest | ⟨tail, rfl⟩
  · rw [skipWhile_line hn (.inl rfl)]
    exact ⟨lineEnd, rfl⟩
  · rw [skipWhile_line hn (.inr hrest)]
    obtain ⟨tail, rfl⟩ := List.head?_eq_some_iff.1 hrest
    exact ⟨lineEnd, rfl⟩
  · have hr : ∀ c ∈ text ++ ['\r'], c ≠ '\n' := by
      simpa [or_imp, forall_and] using hn
    rw [show text ++ (['\r', '\n'] ++ tail) = (text ++ ['\r']) ++ '\n' :: tail by simp,
      skipWhile_line hr (.inr rfl), byteLength_append]
    exact ⟨lineEnd || true, by rw [← Nat.add_assoc]; rfl⟩

/-! ### Steps of the scan -/

def Place.ofCursor (c : Cursor) : Place := ⟨c.offset, c.rest⟩

variable {s : Scan} {here : Cursor} {lineEnd first : Bool}

theorem tokenAt_quote (lineEnd : Bool) (hq : quote = '"' ∨ quote = '\'') (hhere : here.rest = quote :: rest) :
    ∃ string, readString quote (rest.length + 1) (here.offset + 1) rest =
      (string, (Scanned.tokenAt here lineEnd).wellFormed, (Scanned.tokenAt here lineEnd).next) := by
  rw [Scanned.tokenAt, hhere]
  rcases hq with rfl | rfl <;> exact ⟨_, rfl⟩

theorem step_string (hq : quote = '"' ∨ quote = '\'') (hhere : here.rest = quote :: rest)
    (hs : s.place = .ofCursor here) (hok : (Scanned.tokenAt here lineEnd).wellFormed) :
    s.step.depths = s.depths ∧ s.step.sites = s.sites ∧
      ∃ body, rest = body ++ quote :: (Scanned.tokenAt here lineEnd).next.rest ∧
        (s.step.place = .ofCursor (Scanned.tokenAt here lineEnd).next ↔
          ¬ ['\r', '\n'] <:+: body) := by
  have hstep : s.step = s.moveTo (skipQuoted quote (here.offset + 1) rest) s.depths s.sites := by
    rw [Scan.step, hs, Place.ofCursor, hhere]
    rcases hq with rfl | rfl <;> rfl
  obtain ⟨string, hread⟩ := tokenAt_quote lineEnd hq hhere
  rw [hok] at hread
  obtain ⟨body, hbody⟩ := quoted_of_readString hq hread
  rw [hstep]
  exact ⟨rfl, rfl, body, hbody.split, hbody.passed⟩

theorem template_kind {start text : Cursor}
    (hok : (Scanned.template first start text lineEnd).wellFormed) :
    ∃ part escaped, (Scanned.template first start text lineEnd).token.kind = .template part escaped ∧
      ((readTemplate (text.rest.length + 1) true text.offset text.rest).opens ↔
        part = .head ∨ part = .middle) := by
  change (readTemplate (text.rest.length + 1) true text.offset text.rest).closed = true at hok
  unfold Scanned.template
  refine ⟨_, _, if_pos hok, ?_⟩
  cases (readTemplate (text.rest.length + 1) true text.offset text.rest).opens <;> cases first <;>
    simp

/-- Where the scan enters template text it goes on behind the piece that the reader finds there,
and counts the braces of the substitution that the piece opens. -/
theorem template_place {start text : Cursor} {depths : List Nat}
    (hok : (Scanned.template first start text lineEnd).wellFormed) :
    (s.template (.ofCursor text) depths).place =
        .ofCursor (Scanned.template first start text lineEnd).next ∧
      (s.template (.ofCursor text) depths).sites = s.sites ∧ ∃ part escaped,
        (Scanned.template first start text lineEnd).token.kind = .template part escaped ∧
        (s.template (.ofCursor text) depths).depths =
          if part = .head ∨ part = .middle then 0 :: depths else depths := by
  obtain ⟨part, escaped, hkind, hopens⟩ := template_kind hok
  rw [Scan.template, Place.ofCursor, skipTemplate_of_closed hok]
  cases ho : (readTemplate (text.rest.length + 1) true text.offset text.rest).opens with
  | true => exact ⟨rfl, rfl, part, escaped, hkind, (if_pos (hopens.1 ho)).symm⟩
  | false =>
    refine ⟨rfl, rfl, part, escaped, hkind, (if_neg fun h => ?_).symm⟩
    exact Bool.false_ne_true (ho.symm.trans (hopens.2 h))

theorem step_template (hhere : here.rest = '\x60' :: rest) (hs : s.place = .ofCursor here)
    (hok : (Scanned.tokenAt here lineEnd).wellFormed) :
    s.step.place = .ofCursor (Scanned.tokenAt here lineEnd).next ∧ s.step.sites = s.sites ∧
      ∃ part escaped, (Scanned.tokenAt here lineEnd).token.kind = .template part escaped ∧
        s.step.depths = if part = .head ∨ part = .middle then 0 :: s.depths else s.depths := by
  have hstep : s.step = s.template ⟨here.offset + 1, rest⟩ s.depths := by
    rw [Scan.step, hs, Place.ofCursor, hhere]
    rfl
  have htoken : Scanned.tokenAt here lineEnd =
      Scanned.template true here ⟨here.offset + 1, rest⟩ lineEnd := by
    rw [Scanned.tokenAt, hhere]
    rfl
  rw [htoken] at hok ⊢
  rw [hstep]
  exact template_place hok

theorem step_substitution {start : Cursor} {depths : List Nat} (hhere : here.rest = '\x7d' :: rest)
    (hs : s.place = .ofCursor here) (hdepths : s.depths = 0 :: depths)
    (hok : (Scanned.template false start ⟨here.offset + 1, rest⟩ lineEnd).wellFormed) :
    s.step.place =
        .ofCursor (Scanned.template false start ⟨here.offset + 1, rest⟩ lineEnd).next ∧
      s.step.sites = s.sites ∧ ∃ part escaped,
        (Scanned.template false start ⟨here.offset + 1, rest⟩ lineEnd).token.kind =
          .template part escaped ∧
        s.step.depths = if part = .head ∨ part = .middle then 0 :: depths else depths := by
  have hstep : s.step = s.template ⟨here.offset + 1, rest⟩ depths := by
    rw [Scan.step, hs, Place.ofCursor, hhere, hdepths]
    rfl
  rw [hstep]
  exact template_place hok

theorem step_blockComment {script : Bool} (hhere : here.rest = '/' :: '*' :: rest)
    (hs : s.place = .ofCursor here) (hclosed : ['*', '/'] <:+: rest) :
    s.step.depths = s.depths ∧ s.step.sites = s.sites ∧
      ∃ lineEnd', skipGaps script .code lineEnd here.offset here.rest =
        skipGaps script .code lineEnd' s.step.place.offset s.step.place.rest := by
  have hstep : s.step = s.moveTo (skipBlockComment (here.offset + 2) rest) s.depths s.sites := by
    rw [Scan.step, hs, Place.ofCursor, hhere]
    rfl
  obtain ⟨lineEnd', hskip⟩ := skipGaps_block script lineEnd (here.offset + 2) hclosed
  rw [hstep, hhere]
  exact ⟨rfl, rfl, lineEnd', hskip⟩

theorem step_lineComment {script : Bool} (hhere : here.rest = '/' :: '/' :: (text ++ rest))
    (hs : s.place = .ofCursor here) (htext : ∀ c ∈ text, Identifier.isLineEnd c = false)
    (hrest : rest = [] ∨ rest.head? = some '\n' ∨ ['\r', '\n'] <+: rest) :
    s.step.depths = s.depths ∧ s.step.sites = s.sites ∧
      ∃ lineEnd', skipGaps script .code lineEnd here.offset here.rest =
        skipGaps script .code lineEnd' s.step.place.offset s.step.place.rest := by
  have hstep : s.step = s.moveTo (Place.skipWhile (· != '\n') (here.offset + 2) (text ++ rest))
      s.depths s.sites := by
    rw [Scan.step, hs, Place.ofCursor, hhere]
    rfl
  obtain ⟨lineEnd', hskip⟩ := skipGaps_line script lineEnd (here.offset + 2) htext hrest
  rw [hstep, hhere]
  exact ⟨rfl, rfl, lineEnd', hskip⟩

/-- A continued line of a string is scanned as code. -/
example : (nameAll "s = \"\\\r\nfunction()\";".toList "g" Names.unscoped).1.text =
    "s = \"\\\r\nfunction g()\";".toList := by
  decide +kernel

end FineGrain.AnonymousFunction
