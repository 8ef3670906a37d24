import FineGrain.Proofs.AnonymousFunction.Skipping
import Mathlib.Data.List.TakeWhile
/-!
The scan by parts. What a step passes over depends on what it passes over, on the brace depths and the
last significant character, and on one character behind: whatever else follows, the same part is passed
in the same way. So a text is cut into parts at the places where the scan finds a function without a
name, and this cut tells what the scan of any text made of the same parts does.
-/

namespace FineGrain.AnonymousFunction

open Text

variable {c : Char} {last next : Option Char} {depths depths' depths'' : List Nat} {offset : Nat}
  {rest rest' word word' gap : List Char} {found found' : Nat → List Nat}

/-! ### Passing over a part -/

/-- The last significant character behind `word`, if `last` is the one in front of it. -/
def lastOf (last : Option Char) (word : List Char) : Option Char :=
  word.foldl (fun last c => if isBlank c then last else some c) last

theorem lastOf_append : lastOf last (word ++ word') = lastOf (lastOf last word) word' :=
  List.foldl_append ..

theorem lastSignificant_append : lastSignificant last (offset + byteLength word) offset (word ++ rest) =
    lastOf last word := by
  induction word generalizing last offset with
  | nil =>
    cases rest with
    | nil => rfl
    | cons c rest => exact if_neg (Nat.lt_irrefl offset)
  | cons c word ih =>
    have hc := c.utf8Size_pos
    have hlt : offset < offset + byteLength (c :: word) := by
      rw [byteLength]
      omega
    rw [List.cons_append, lastSignificant, if_pos hlt, byteLength, ← Nat.add_assoc, ih]
    rfl

theorem run_of_rest_nil {s : Scan} (h : s.place.rest = []) : ∀ k, Scan.run k s = s
  | 0 => rfl
  | k + 1 => by rw [Scan.run, h]; rfl

theorem run_add {s : Scan} {k k' : Nat} : Scan.run (k + k') s = Scan.run k' (Scan.run k s) := by
  induction k generalizing s with
  | zero => rw [Nat.zero_add, Scan.run]
  | succ k ih =>
    rw [Nat.add_right_comm, Scan.run, Scan.run]
    split
    next hempty => rw [run_of_rest_nil (List.isEmpty_iff.1 hempty)]
    next => exact ih

theorem run_one {sites : List Nat} (h : word ≠ []) :
    Scan.run 1 ⟨⟨offset, word ++ rest⟩, depths, last, sites⟩ =
      (Scan.mk ⟨offset, word ++ rest⟩ depths last sites).step := by
  have hsome : (word ++ rest).isEmpty = false := by
    rw [List.isEmpty_eq_false_iff]
    exact List.append_ne_nil_of_left_ne_nil h rest
  rw [Scan.run, hsome, if_neg Bool.false_ne_true, Scan.run]

/-- Scanning `word` from some depths, behind the character `last` and with `next` right behind it,
passes over it just so, and finds the sites `found offset`. -/
def Over (depths : List Nat) (last : Option Char) (word : List Char) (next : Option Char)
    (depths' : List Nat) (found : Nat → List Nat) : Prop :=
  ∀ offset rest sites, rest.head? = next → ∃ k ≤ word.length,
    Scan.run k ⟨⟨offset, word ++ rest⟩, depths, last, sites⟩ =
      ⟨⟨offset + byteLength word, rest⟩, depths', lastOf last word, sites ++ found offset⟩

/-- Over depths, behind the character `last` and with `next` right behind it, one step passes over
`word`, and finds the sites `found offset`. -/
structure Once (depths : List Nat) (last : Option Char) (word : List Char) (next : Option Char)
    (depths' : List Nat) (found : Nat → List Nat) : Prop where
  nonempty : word ≠ []
  step : ∀ offset rest sites, rest.head? = next →
    (Scan.mk ⟨offset, word ++ rest⟩ depths last sites).step =
      (Scan.mk ⟨offset, word ++ rest⟩ depths last sites).moveTo ⟨offset + byteLength word, rest⟩ depths'
        (sites ++ found offset)

theorem Once.over (h : Once depths last word next depths' found) :
    Over depths last word next depths' found := by
  intro offset rest sites hrest
  refine ⟨1, List.length_pos_iff.2 h.nonempty, ?_⟩
  rw [run_one h.nonempty, h.step offset rest sites hrest, Scan.moveTo, lastSignificant_append]

namespace Over

theorem nil : Over depths last [] next depths fun _ => [] := by
  intro offset rest sites _
  refine ⟨0, Nat.le_refl _, ?_⟩
  rw [List.append_nil]
  rfl

theorem append (word' : List Char) (h : Over depths last word (word'.head?.or next) depths' found)
    (h' : Over depths' (lastOf last word) word' next depths'' found') :
    Over depths last (word ++ word') next depths''
      fun offset => found offset ++ found' (offset + byteLength word) := by
  intro offset rest sites hrest
  obtain ⟨k, hk, hrun⟩ := h offset (word' ++ rest) sites (by rw [List.head?_append, hrest])
  obtain ⟨k', hk', hrun'⟩ := h' (offset + byteLength word) rest (sites ++ found offset) hrest
  refine ⟨k + k', by rw [List.length_append]; omega, ?_⟩
  rw [run_add, List.append_assoc, hrun, hrun', byteLength_append, lastOf_append, List.append_assoc,
    Nat.add_assoc]

/-- No step passes less than one character, so the fuel is enough for the steps there are. -/
theorem run_eq (h : Over depths last word none depths' found) :
    Scan.run word.length ⟨⟨0, word⟩, depths, last, []⟩ =
      ⟨⟨byteLength word, []⟩, depths', lastOf last word, found 0⟩ := by
  obtain ⟨k, hk, hrun⟩ := h 0 [] [] rfl
  simp only [List.append_nil, List.nil_append, Nat.zero_add] at hrun
  obtain ⟨n, hn⟩ := Nat.exists_eq_add_of_le hk
  rw [hn, run_add, hrun, run_of_rest_nil rfl]

end Over

/-! ### What a skip takes -/

/-- A skip takes `word`, whatever follows with the same first character as `more`. -/
def Takes {α : Type} (skip : Nat → List Char → α) (answer : Place → α) (word more : List Char) :
    Prop :=
  ∀ offset rest, rest.head? = more.head? →
    skip offset (word ++ rest) = answer ⟨offset + byteLength word, rest⟩

theorem head?_append_congr {more : List Char} (h : rest.head? = more.head?) :
    (word ++ rest).head? = (word ++ more).head? := by
  rw [List.head?_append, List.head?_append, h]

theorem eq_nil_of_head? (h : rest.head? = ([] : List Char).head?) : rest = [] :=
  List.head?_eq_none_iff.1 h

theorem ne_or_head?_ne {x y : Char} {text : List Char}
    (h : ∀ tail, c = x → text = y :: tail → False) : c ≠ x ∨ text.head? ≠ some y := by
  refine Decidable.or_iff_not_imp_left.2 fun hc hhead => ?_
  obtain ⟨tail, htail⟩ := List.head?_eq_some_iff.1 hhead
  exact h tail (Decidable.not_not.1 hc) htail

theorem eq_nil_of_not_cons {x : Char} {text : List Char}
    (h : ∀ d tail, x = x → text = d :: tail → False) : text = [] := by
  cases text with
  | nil => rfl
  | cons d tail => exact (h d tail rfl rfl).elim

theorem skipQuoted_lineFeed {quote : Char} :
    skipQuoted quote offset ('\n' :: rest) = ⟨offset, '\n' :: rest⟩ := by
  cases rest <;> rfl

theorem skipQuoted_close {quote : Char} (hq : quote = '"' ∨ quote = '\'') :
    skipQuoted quote offset (quote :: rest) = ⟨offset + quote.utf8Size, rest⟩ := by
  rcases hq with rfl | rfl <;> cases rest <;> rfl

theorem skipTemplate_close : skipTemplate offset ('\x60' :: rest) = (false, ⟨offset + 1, rest⟩) := by
  cases rest <;> rfl

theorem takes_skipQuoted {quote : Char} (hq : quote = '"' ∨ quote = '\'') (text : List Char) :
    ∃ word more, text = word ++ more ∧ Takes (skipQuoted quote) id word more := by
  fun_induction skipQuoted quote 0 text with
  | case1 =>
    refine ⟨[], [], rfl, ?_⟩
    -- A text that ends in a backslash goes on with nothing, or else it would escape what follows.
    intro offset rest hrest
    rw [eq_nil_of_head? hrest]
    rfl
  | case2 offset c rest ih =>
    obtain ⟨word, more, rfl, htakes⟩ := ih
    refine ⟨'\\' :: c :: word, more, rfl, ?_⟩
    intro offset rest hrest
    rw [List.cons_append, List.cons_append, skipQuoted, htakes _ _ hrest, byteLength, byteLength,
      Nat.add_assoc offset, Nat.add_assoc offset, Nat.add_assoc 1]
    rfl
  | case3 offset c rest hline hn =>
    refine ⟨[], c :: rest, rfl, ?_⟩
    intro offset rest hrest
    obtain ⟨tail, rfl⟩ := List.head?_eq_some_iff.1 hrest
    cases beq_iff_eq.1 hn
    exact skipQuoted_lineFeed
  | case4 offset c rest hline hn hquote =>
    refine ⟨[c], rest, rfl, ?_⟩
    intro offset rest _
    cases beq_iff_eq.1 hquote
    exact skipQuoted_close hq
  | case5 offset c rest hpair hn hquote ih =>
    obtain ⟨word, more, rfl, htakes⟩ := ih
    refine ⟨c :: word, more, rfl, ?_⟩
    intro offset rest hrest
    by_cases hb : c = '\\'
    · subst hb
      obtain ⟨rfl, rfl⟩ := List.append_eq_nil_iff.1 (eq_nil_of_not_cons hpair)
      rw [eq_nil_of_head? hrest]
      rcases hq with rfl | rfl <;> rfl
    · rw [List.cons_append, skipQuoted_char hb (by simpa using hn) (by simpa using hquote),
        htakes _ _ hrest, byteLength, Nat.add_assoc]

theorem takes_skipTemplate (text : List Char) : ∃ opens word more,
    text = word ++ more ∧ Takes skipTemplate (fun p => (opens, p)) word more := by
  fun_induction skipTemplate 0 text with
  | case1 =>
    refine ⟨false, [], [], rfl, ?_⟩
    intro offset rest hrest
    rw [eq_nil_of_head? hrest]
    rfl
  | case2 offset c rest ih =>
    obtain ⟨opens, word, more, rfl, htakes⟩ := ih
    refine ⟨opens, '\\' :: c :: word, more, rfl, ?_⟩
    intro offset rest hrest
    rw [List.cons_append, List.cons_append, skipTemplate, htakes _ _ hrest, byteLength, byteLength,
      Nat.add_assoc offset, Nat.add_assoc offset, Nat.add_assoc 1]
    rfl
  | case3 offset rest => exact ⟨true, ['$', '\x7b'], rest, rfl, fun offset rest _ => rfl⟩
  | case4 offset c rest hpair hopen hquote =>
    refine ⟨false, [c], rest, rfl, ?_⟩
    intro offset rest _
    cases beq_iff_eq.1 hquote
    exact skipTemplate_close
  | case5 offset c rest hpair hopen hquote ih =>
    obtain ⟨opens, word, more, rfl, htakes⟩ := ih
    refine ⟨opens, c :: word, more, rfl, ?_⟩
    intro offset rest hrest
    by_cases hb : c = '\\'
    · subst hb
      obtain ⟨rfl, rfl⟩ := List.append_eq_nil_iff.1 (eq_nil_of_not_cons hpair)
      rw [eq_nil_of_head? hrest]
      exact htakes (offset + Char.utf8Size '\\') [] rfl
    · rw [List.cons_append, skipTemplate_char hb ?_ (by simpa using hquote),
        htakes _ _ hrest, byteLength, Nat.add_assoc]
      rw [head?_append_congr hrest]
      exact ne_or_head?_ne hopen

theorem takes_skipBlockComment (text : List Char) :
    ∃ word more, text = word ++ more ∧ Takes skipBlockComment id word more := by
  fun_induction skipBlockComment 0 text with
  | case1 =>
    refine ⟨[], [], rfl, ?_⟩
    intro offset rest hrest
    rw [eq_nil_of_head? hrest]
    rfl
  | case2 offset rest => exact ⟨['*', '/'], rest, rfl, fun offset rest _ => rfl⟩
  | case3 offset c rest hend ih =>
    obtain ⟨word, more, rfl, htakes⟩ := ih
    refine ⟨c :: word, more, rfl, ?_⟩
    intro offset rest hrest
    rw [List.cons_append, skipBlockComment_char ?_, htakes _ _ hrest, byteLength, Nat.add_assoc]
    rw [head?_append_congr hrest]
    exact ne_or_head?_ne hend

theorem exists_takeWhile (q : Char → Bool) (text : List Char) : ∃ word more, text = word ++ more ∧
    (∀ c ∈ word, q c = true) ∧ ∀ c ∈ more.head?, q c = false := by
  refine ⟨text.takeWhile q, text.dropWhile q, List.takeWhile_append_dropWhile.symm, ?_, ?_⟩
  · intro c hc
    exact List.mem_takeWhile_imp hc
  · intro c hc
    have hhead := List.head?_dropWhile_not q text
    rw [Option.mem_def.1 hc] at hhead
    exact hhead

theorem takeWord_append (hword : ∀ c ∈ word, isWordChar c = true)
    (hnext : ∀ c ∈ rest.head?, isWordChar c = false) :
    takeWord offset (word ++ rest) = (word, ⟨offset + byteLength word, rest⟩) := by
  induction word generalizing offset with
  | nil =>
    cases rest with
    | nil => rfl
    | cons c rest => rw [List.nil_append, takeWord, if_neg (by simpa using hnext c rfl)]; rfl
  | cons c word ih =>
    obtain ⟨hc, hword⟩ := List.forall_mem_cons.1 hword
    rw [List.cons_append, takeWord, if_pos hc, ih hword, byteLength, Nat.add_assoc]

/-- What may stand between `function` and a parenthesis: white space with at most one star. What comes
next is neither white space nor the first star. -/
structure Gap (gap : List Char) (next : Option Char) : Prop where
  ends : ∀ c ∈ next, isBlank c = false
  star : (∀ c ∈ gap, isBlank c = true) ∧ next ≠ some '*' ∨
    ∃ front back, gap = front ++ '*' :: back ∧ (∀ c ∈ front, isBlank c = true) ∧
      ∀ c ∈ back, isBlank c = true

theorem Gap.blanks (h : Gap gap next) : ∀ c ∈ gap, isBlank c = true ∨ c = '*' := by
  intro c hc
  rcases h.star with ⟨hgap, -⟩ | ⟨front, back, rfl, hfront, hback⟩
  · exact .inl (hgap c hc)
  · rcases List.mem_append.1 hc with hc | hc
    · exact .inl (hfront c hc)
    · rcases List.mem_cons.1 hc with rfl | hc
      · exact .inr rfl
      · exact .inl (hback c hc)

theorem exists_gap (text : List Char) : ∃ gap more, text = gap ++ more ∧ Gap gap more.head? := by
  obtain ⟨front, more, rfl, hfront, hmore⟩ := exists_takeWhile isBlank text
  by_cases hstar : more.head? = some '*'
  · obtain ⟨tail, rfl⟩ := List.head?_eq_some_iff.1 hstar
    obtain ⟨back, more, rfl, hback, hmore⟩ := exists_takeWhile isBlank tail
    exact ⟨front ++ '*' :: back, more, by simp, hmore, .inr ⟨front, back, rfl, hfront, hback⟩⟩
  · exact ⟨front, more, rfl, hmore, .inl ⟨hfront, hstar⟩⟩

theorem openParen?_gap (h : Gap gap rest.head?) : openParen? ⟨offset, gap ++ rest⟩ =
    if rest.head? = some '(' then some (offset + byteLength gap) else none := by
  rw [openParen?]
  rcases h.star with ⟨hgap, hstar⟩ | ⟨front, back, rfl, hfront, hback⟩
  · rw [skipWhile_append hgap h.ends]
    cases rest with
    | nil => rfl
    | cons c rest =>
      by_cases hc : c = '('
      · subst hc
        rfl
      · have hs : c ≠ '*' := fun hc => hstar (congrArg some hc)
        simp [hc, hs]
  · have hskip : Place.skipWhile isBlank offset (front ++ '*' :: (back ++ rest)) =
        ⟨offset + byteLength front, '*' :: (back ++ rest)⟩ := 
          skipWhile_append hfront (by simp [isBlank])
    have hlength : offset + byteLength (front ++ '*' :: back) =
        offset + byteLength front + 1 + byteLength back := by
      rw [byteLength_append, byteLength, show Char.utf8Size '*' = 1 from rfl]
      omega
    rw [List.append_assoc, List.cons_append, hskip, hlength]
    simp only [skipWhile_append hback h.ends]
    cases rest with
    | nil => rfl
    | cons c rest =>
      by_cases hc : c = '('
      · subst hc
        rfl
      · simp [hc]

/-! ### Steps of the scan -/

variable {seen : List Nat}

theorem step_quoted {quote : Char} (hq : quote = '"' ∨ quote = '\'') :
    (Scan.mk ⟨offset, quote :: rest⟩ depths last seen).step =
      (Scan.mk ⟨offset, quote :: rest⟩ depths last seen).moveTo (skipQuoted quote (offset + 1) rest)
        depths seen := by
  rcases hq with rfl | rfl <;> rfl

theorem step_line : (Scan.mk ⟨offset, '/' :: '/' :: rest⟩ depths last seen).step =
    (Scan.mk ⟨offset, '/' :: '/' :: rest⟩ depths last seen).moveTo
      (Place.skipWhile (· != '\n') (offset + 2) rest) depths seen := rfl

theorem step_block : (Scan.mk ⟨offset, '/' :: '*' :: rest⟩ depths last seen).step =
    (Scan.mk ⟨offset, '/' :: '*' :: rest⟩ depths last seen).moveTo (skipBlockComment (offset + 2) rest)
      depths seen := rfl

theorem ne_of_isWordChar {x : Char} (hc : isWordChar c = true) (hx : isWordChar x = false) :
    c ≠ x := by
  rintro rfl
  rw [hc] at hx
  cases hx

theorem step_word {s : Scan} (hrest : s.place.rest = word ++ rest) (hne : word ≠ [])
    (hword : ∀ c ∈ word, isWordChar c = true) (hnext : ∀ c ∈ rest.head?, isWordChar c = false) :
    s.step = s.moveTo ⟨s.place.offset + byteLength word, rest⟩ s.depths
      (s.sites ++ siteAfter s word ⟨s.place.offset + byteLength word, rest⟩) := by
  obtain ⟨⟨offset, text⟩, depths, last, seen⟩ := s
  obtain ⟨c, word, rfl⟩ := List.exists_cons_of_ne_nil hne
  obtain rfl : text = c :: word ++ rest := hrest
  have hc := hword c List.mem_cons_self
  have hother : ∀ x, isWordChar x = false → c ≠ x := fun _ => ne_of_isWordChar hc
  rw [Scan.step.eq_def]
  dsimp only
  split
  case h_1 h => cases h
  case h_2 h => exact absurd (List.cons.inj h).1 (hother '/' rfl)
  case h_3 h => exact absurd (List.cons.inj h).1 (hother '/' rfl)
  case h_4 h =>
    cases h
    have htake : takeWord offset (c :: word ++ rest) =
        (c :: word, ⟨offset + byteLength (c :: word), rest⟩) := takeWord_append hword hnext
    rw [List.cons_append] at htake
    simp [hother '\'' rfl, hother '"' rfl, hother '\x60' rfl, hother '\x7b' rfl,
      hother '\x7d' rfl, hc, htake]

/-- A character that stands for itself: it opens and closes nothing, and belongs to no word. -/
def Plain (c : Char) : Prop :=
  c ∉ ['\'', '"', '\x60', '\x7b', '\x7d'] ∧ isWordChar c = false

theorem step_plain (hc : Plain c)
    (h : c ≠ '/' ∨ rest.head? ≠ some '/' ∧ rest.head? ≠ some '*') :
    (Scan.mk ⟨offset, c :: rest⟩ depths last seen).step =
      (Scan.mk ⟨offset, c :: rest⟩ depths last seen).moveTo ⟨offset + c.utf8Size, rest⟩ depths
        seen := by
  rw [Scan.step.eq_def]
  dsimp only
  split
  case h_1 h => cases h
  case h_2 heq => cases heq; exact absurd rfl (h.resolve_left (fun h => h rfl)).1
  case h_3 heq => cases heq; exact absurd rfl (h.resolve_left (fun h => h rfl)).2
  case h_4 heq =>
    cases heq
    obtain ⟨hquotes, hword⟩ := hc
    simp only [List.mem_cons, List.not_mem_nil, or_false, not_or] at hquotes
    simp [hquotes, hword, Place.step]

/-! ### Parts without a site -/

theorem Plain.of_isBlank (hc : isBlank c = true) : Plain c := by
  simp only [isBlank, Bool.or_eq_true, beq_iff_eq] at hc
  rcases hc with (((rfl | rfl) | rfl) | rfl) | rfl <;> exact ⟨by decide, rfl⟩

theorem Gap.not_word (h : Gap gap next) (hnext : gap = [] → ∀ c ∈ next, isWordChar c = false) :
    ∀ c ∈ gap.head?.or next, isWordChar c = false := by
  cases gap with
  | nil => exact hnext rfl
  | cons d gap =>
    intro c hc
    cases hc
    rcases h.blanks d List.mem_cons_self with hd | rfl
    · exact (Plain.of_isBlank hd).2
    · rfl

namespace Once

theorem single (h : ∀ offset rest sites, rest.head? = next →
    (Scan.mk ⟨offset, c :: rest⟩ depths last sites).step =
      (Scan.mk ⟨offset, c :: rest⟩ depths last sites).moveTo ⟨offset + c.utf8Size, rest⟩ depths'
        sites) : Once depths last [c] next depths' fun _ => [] := by
  refine ⟨List.cons_ne_nil c [], ?_⟩
  intro offset rest sites hrest
  rw [List.append_nil]
  exact h offset rest sites hrest

theorem plain (hc : Plain c) (h : c ≠ '/' ∨ next ≠ some '/' ∧ next ≠ some '*') :
    Once depths last [c] next depths fun _ => [] := by
  apply single
  intro offset rest sites hrest
  apply step_plain hc
  rw [hrest]
  exact h

theorem otherWord (hne : word ≠ []) (hword : ∀ c ∈ word, isWordChar c = true)
    (hnext : ∀ c ∈ next, isWordChar c = false)
    (hother : word ≠ "function".toList ∨ last = some '.') :
    Once depths last word next depths fun _ => [] := by
  refine ⟨hne, ?_⟩
  intro offset rest sites hrest
  rw [step_word rfl hne hword (by rwa [hrest])]
  congr 2
  rw [siteAfter, if_neg]
  rw [Bool.and_eq_true, beq_iff_eq, bne_iff_ne]
  rintro ⟨hfunction, hlast⟩
  rcases hother with hother | hother
  · exact hother (by rw [← hfunction, String.toList_ofList])
  · exact hlast hother

theorem string (depths : List Nat) (last : Option Char) {quote : Char} (hq : quote = '"' ∨ quote = '\'')
    (text : List Char) :
    ∃ word more, text = word ++ more ∧
      Once depths last (quote :: word) more.head? depths fun _ => [] := by
  obtain ⟨word, more, rfl, htakes⟩ := takes_skipQuoted hq text
  refine ⟨word, more, rfl, List.cons_ne_nil _ _, ?_⟩
  intro offset rest sites hrest
  have hsize : quote.utf8Size = 1 := by rcases hq with rfl | rfl <;> rfl
  rw [List.cons_append, step_quoted hq, htakes _ _ hrest, byteLength, hsize, ← Nat.add_assoc, List.append_nil]
  rfl

theorem template (hc : c.utf8Size = 1) (h : ∀ offset rest sites,
    (Scan.mk ⟨offset, c :: rest⟩ depths last sites).step =
      (Scan.mk ⟨offset, c :: rest⟩ depths last sites).template ⟨offset + 1, rest⟩ depths')
    (text : List Char) : ∃ depths'' word more, text = word ++ more ∧
      Once depths last (c :: word) more.head? depths'' fun _ => [] := by
  obtain ⟨opens, word, more, rfl, htakes⟩ := takes_skipTemplate text
  refine ⟨if opens then 0 :: depths' else depths', word, more, rfl,
    List.cons_ne_nil _ _, ?_⟩
  intro offset rest sites hrest
  rw [List.cons_append, h, Scan.template, htakes _ _ hrest, byteLength, hc, ← Nat.add_assoc,
    List.append_nil]
  cases opens <;> rfl

theorem lineComment (depths : List Nat) (last : Option Char) (text : List Char) :
    ∃ word more, text = word ++ more ∧ Once depths last ('/' :: '/' :: word) more.head? depths fun _ => [] := by
  obtain ⟨word, more, rfl, hword, hmore⟩ := exists_takeWhile (· != '\n') text
  refine ⟨word, more, rfl, List.cons_ne_nil _ _, ?_⟩
  intro offset rest sites hrest
  have hskip : Place.skipWhile (· != '\n') (offset + 2) (word ++ rest) = _ :=
    skipWhile_append hword (hrest ▸ hmore)
  rw [List.cons_append, List.cons_append, step_line, hskip, List.append_nil, byteLength, byteLength,
    show Char.utf8Size '/' = 1 from rfl, ← Nat.add_assoc, ← Nat.add_assoc]

theorem blockComment (depths : List Nat) (last : Option Char) (text : List Char) :
    ∃ word more, text = word ++ more ∧ Once depths last ('/' :: '*' :: word) more.head? depths fun _ => [] := by
  obtain ⟨word, more, rfl, htakes⟩ := takes_skipBlockComment text
  refine ⟨word, more, rfl, List.cons_ne_nil _ _, ?_⟩
  intro offset rest sites hrest
  rw [List.cons_append, List.cons_append, step_block, htakes _ _ hrest, List.append_nil, byteLength,
    byteLength, show Char.utf8Size '/' = 1 from rfl, show Char.utf8Size '*' = 1 from rfl,
    ← Nat.add_assoc, ← Nat.add_assoc]
  rfl

end Once

namespace Over

theorem blanks (h : ∀ c ∈ word, isBlank c = true ∨ c = '*') :
    Over depths last word next depths fun _ => [] := by
  induction word generalizing last with
  | nil => exact nil
  | cons c word ih =>
    obtain ⟨hc, hword⟩ := List.forall_mem_cons.1 h
    have hplain : Plain c ∧ c ≠ '/' := by
      rcases hc with hc | rfl
      · exact ⟨.of_isBlank hc, by rintro rfl; cases hc⟩
      · exact ⟨⟨by decide, rfl⟩, by decide⟩
    have hfirst : Once depths last [c] (word.head?.or next) depths fun _ => [] :=
      .plain hplain.1 (.inl hplain.2)
    exact hfirst.over.append word (ih hword)

theorem function (depths : List Nat) (hlast : last ≠ some '.') (hgap : Gap gap next)
    (hnext : gap = [] → ∀ c ∈ next, isWordChar c = false) :
    Over depths last ("function".toList ++ gap) next depths fun offset =>
      if next = some '(' then [offset + byteLength ("function".toList ++ gap)] else [] := by
  intro offset rest sites hrest
  let s : Scan := ⟨⟨offset, "function".toList ++ (gap ++ rest)⟩, depths, last, sites⟩
  let found := if next = some '(' then [offset + byteLength ("function".toList ++ gap)] else []
  have hafter : ∀ c ∈ (gap ++ rest).head?, isWordChar c = false := by
    rw [List.head?_append, hrest]
    exact hgap.not_word hnext
  have hsites : siteAfter s "function".toList
      ⟨offset + byteLength "function".toList, gap ++ rest⟩ = found := by
    rw [siteAfter, if_pos (by simp [s, hlast]), openParen?_gap (hrest ▸ hgap), hrest, Nat.add_assoc,
      ← byteLength_append]
    unfold found
    split <;> rfl
  have hone : Scan.run 1 s = ⟨⟨offset + byteLength "function".toList, gap ++ rest⟩, depths,
      lastOf last "function".toList, sites ++ found⟩ := by
    rw [run_one (by decide), ← hsites]
    refine (step_word (s := s) rfl (by decide) (List.all_eq_true.1 rfl) hafter).trans ?_
    rw [Scan.moveTo]
    congr 1
    exact lastSignificant_append
  have hblanks : Over depths (lastOf last "function".toList) gap next depths fun _ => [] :=
    blanks hgap.blanks
  obtain ⟨k, hk, hrun⟩ := hblanks (offset + byteLength "function".toList) rest (sites ++ found) hrest
  refine ⟨1 + k, by rw [List.length_append, show "function".toList.length = 8 from rfl]; omega, ?_⟩
  rw [run_add, List.append_assoc, hone, hrun, lastOf_append, List.append_nil, Nat.add_assoc,
    ← byteLength_append]

end Over

/-! ### Every text is passed over -/

/-- What a step does at the character `c`. A step that passes `c` alone looks only whether a slash or a
star is next. -/
inductive Move (depths : List Nat) (c : Char) (rest : List Char) : Prop
  | word (hc : isWordChar c = true)
  | string (hc : c = '"' ∨ c = '\'')
  | lineComment (tail : List Char) (hc : c = '/') (hrest : rest = '/' :: tail)
  | blockComment (tail : List Char) (hc : c = '/') (hrest : rest = '*' :: tail)
  | template (depths' : List Nat) (hc : c = '\x60' ∨ c = '\x7d')
      (hstep : ∀ offset last sites tail, (Scan.mk ⟨offset, c :: tail⟩ depths last sites).step =
        (Scan.mk ⟨offset, c :: tail⟩ depths last sites).template ⟨offset + 1, tail⟩ depths')
  | single (depths' : List Nat) (hc : isWordChar c = false)
      (hstep : ∀ offset last sites tail,
        (∀ x ∈ ['/', '*'], tail.head? = some x → rest.head? = some x) →
        (Scan.mk ⟨offset, c :: tail⟩ depths last sites).step =
          (Scan.mk ⟨offset, c :: tail⟩ depths last sites).moveTo ⟨offset + c.utf8Size, tail⟩ depths'
            sites)

theorem move (depths : List Nat) (c : Char) (rest : List Char) : Move depths c rest := by
  by_cases hword : isWordChar c = true
  · exact .word hword
  have hcode : isWordChar c = false := Bool.eq_false_iff.2 hword
  by_cases hquote : c = '"' ∨ c = '\''
  · exact .string hquote
  by_cases hmark : c = '\x60'
  · exact .template depths (.inl hmark) fun _ _ _ _ => by subst hmark; rfl
  by_cases hopen : c = '\x7b'
  · subst hopen
    cases depths with
    | nil => exact .single [] rfl fun _ _ _ _ _ => rfl
    | cons d ds => exact .single ((d + 1) :: ds) rfl fun _ _ _ _ _ => rfl
  by_cases hclose : c = '\x7d'
  · subst hclose
    rcases depths with _ | ⟨_ | d, ds⟩
    · exact .single [] rfl fun _ _ _ _ _ => rfl
    · exact .template ds (.inr rfl) fun _ _ _ _ => rfl
    · exact .single (d :: ds) rfl fun _ _ _ _ _ => rfl
  have hplain : Plain c := by
    refine ⟨?_, hcode⟩
    simp only [List.mem_cons, List.not_mem_nil, or_false, not_or]
    exact ⟨fun h => hquote (.inr h), fun h => hquote (.inl h), hmark, hopen, hclose⟩
  by_cases hcomment : c ≠ '/' ∨ rest.head? ≠ some '/' ∧ rest.head? ≠ some '*'
  · refine .single depths hcode fun offset last sites tail hnext => step_plain hplain ?_
    exact hcomment.imp_right fun h => ⟨mt (hnext '/' (by decide)) h.1, mt (hnext '*' (by decide)) h.2⟩
  rw [not_or, not_not, not_and_or, not_not, not_not] at hcomment
  obtain ⟨hslash, hnext | hnext⟩ := hcomment
  · obtain ⟨tail, hrest⟩ := List.head?_eq_some_iff.1 hnext
    exact .lineComment tail hslash hrest
  · obtain ⟨tail, hrest⟩ := List.head?_eq_some_iff.1 hnext
    exact .blockComment tail hslash hrest

/-- What the scan passes over next: a part that one step takes, or a `function` with its gap. -/
inductive Part (depths : List Nat) (last : Option Char) (word : List Char) (next : Option Char) : Prop
  | once (depths' : List Nat) (h : Once depths last word next depths' fun _ => [])
  | function (gap : List Char) (hword : word = "function".toList ++ gap) (hlast : last ≠ some '.')
      (hgap : Gap gap next) (hnext : gap = [] → ∀ c ∈ next, isWordChar c = false)

theorem Part.nonempty (h : Part depths last word next) : word ≠ [] := by
  cases h with
  | once _ h => exact h.nonempty
  | function gap hword => exact hword ▸ List.append_ne_nil_of_left_ne_nil (by decide) gap

theorem exists_word (depths : List Nat) (last : Option Char) {text : List Char}
    (hword : ∃ c ∈ text.head?, isWordChar c = true) :
    ∃ word more, text = word ++ more ∧ Part depths last word more.head? := by
  obtain ⟨word, more, htext, hw, hmore⟩ := exists_takeWhile isWordChar text
  have hne : word ≠ [] := by
    rintro rfl
    obtain ⟨c, hc, hcword⟩ := hword
    rw [htext] at hc
    rw [hmore c hc] at hcword
    cases hcword
  by_cases hfunction : word = "function".toList ∧ last ≠ some '.'
  · obtain ⟨rfl, hlast⟩ := hfunction
    obtain ⟨gap, more, rfl, hgap⟩ := exists_gap more
    refine ⟨"function".toList ++ gap, more, by rw [htext, List.append_assoc], ?_⟩
    exact .function gap rfl hlast hgap (by rintro rfl; exact hmore)
  · rw [not_and_or, not_not] at hfunction
    exact ⟨word, more, htext, .once depths (.otherWord hne hw hmore hfunction)⟩

theorem exists_part (depths : List Nat) (last : Option Char) (c : Char) (text : List Char) :
    ∃ word more, c :: text = word ++ more ∧ Part depths last word more.head? := by
  cases move depths c text with
  | word hc => exact exists_word depths last ⟨c, rfl, hc⟩
  | string hc =>
    obtain ⟨word, more, rfl, honce⟩ := Once.string depths last hc text
    exact ⟨c :: word, more, rfl, .once depths honce⟩
  | lineComment tail hc hrest =>
    subst hc hrest
    obtain ⟨word, more, rfl, honce⟩ := Once.lineComment depths last tail
    exact ⟨_, more, rfl, .once depths honce⟩
  | blockComment tail hc hrest =>
    subst hc hrest
    obtain ⟨word, more, rfl, honce⟩ := Once.blockComment depths last tail
    exact ⟨_, more, rfl, .once depths honce⟩
  | template depths' hc hstep =>
    have hsize : c.utf8Size = 1 := by rcases hc with rfl | rfl <;> rfl
    obtain ⟨depths'', word, more, rfl, honce⟩ := Once.template hsize
      (fun offset rest sites => hstep offset last sites rest) text
    exact ⟨c :: word, more, rfl, .once depths'' honce⟩
  | single depths' _ hstep =>
    refine ⟨[c], text, rfl, .once depths' (.single ?_)⟩
    intro offset rest sites hrest
    exact hstep offset last sites rest fun x _ hx => hrest ▸ hx

/-! ### Texts cut at their sites -/

variable {text front : List Char} {parts : List (List Char)}

/-- A text cut in front of the parenthesis of each function without a name: what stands before the first
cut, and the parts that start at the cuts. -/
inductive Cut : List Nat → Option Char → List Char → List Char → List (List Char) → Prop
  | done {depths : List Nat} {last : Option Char} : Cut depths last [] [] []
  | pass {depths depths' : List Nat} {last : Option Char} {word rest front : List Char}
      {parts : List (List Char)} (hne : word ≠ [])
      (hover : Over depths last word rest.head? depths' fun _ => [])
      (hrest : Cut depths' (lastOf last word) rest front parts) :
      Cut depths last (word ++ rest) (word ++ front) parts
  | site {depths : List Nat} {last : Option Char} {gap rest front : List Char}
      {parts : List (List Char)} (hlast : last ≠ some '.') (hgap : Gap gap (some '('))
      (hrest : Cut depths (some '(') rest front parts) :
      Cut depths last ("function".toList ++ gap ++ '(' :: rest) ("function".toList ++ gap)
        (('(' :: front) :: parts)

/-- The offsets of parts that follow one another. -/
def starts (offset : Nat) : List (List Char) → List Nat
  | [] => []
  | part :: parts => offset :: starts (offset + byteLength part) parts

theorem length_starts : (starts offset parts).length = parts.length := by
  induction parts generalizing offset with
  | nil => rfl
  | cons part parts ih => rw [starts, List.length_cons, List.length_cons, ih]

theorem le_of_mem_starts {site : Nat} (h : site ∈ starts offset parts) : offset ≤ site := by
  induction parts generalizing offset with
  | nil => cases h
  | cons part parts ih =>
    rcases List.mem_cons.1 h with rfl | h
    · exact Nat.le_refl _
    · exact Nat.le_trans (Nat.le_add_right _ _) (ih h)

theorem starts_pairwise (h : ∀ part ∈ parts, part ≠ []) : (starts offset parts).Pairwise (· < ·) := by
  induction parts generalizing offset with
  | nil => exact .nil
  | cons part parts ih =>
    obtain ⟨hpart, hparts⟩ := List.forall_mem_cons.1 h
    refine .cons ?_ (ih hparts)
    intro site hsite
    have hle := le_of_mem_starts hsite
    have hpos : byteLength part ≠ 0 := fun hzero => hpart (byteLength_eq_zero hzero)
    omega

theorem exists_of_mem_starts {site : Nat} {pre : List Char} (h : site ∈ starts (byteLength pre) parts) :
    ∃ front part back, parts = front ++ part :: back ∧ site = byteLength (pre ++ front.flatten) := by
  induction parts generalizing pre with
  | nil => cases h
  | cons part parts ih =>
    rcases List.mem_cons.1 h with rfl | h
    · exact ⟨[], part, parts, rfl, by simp⟩
    · rw [← byteLength_append] at h
      obtain ⟨front, part', back, rfl, rfl⟩ := ih h
      exact ⟨part :: front, part', back, rfl, by simp⟩

theorem plain_paren : Plain '(' := ⟨by decide, rfl⟩

theorem not_word_paren : isWordChar '(' = false := rfl

namespace Cut

theorem exists_of (depths : List Nat) (last : Option Char) (text : List Char) :
    ∃ front parts, Cut depths last text front parts := by
  -- A part is as long as the skip that takes it, so the induction is on the length of the text.
  induction hn : text.length using Nat.strong_induction_on generalizing depths last text with
  | _ n ih =>
  cases text with
  | nil => exact ⟨[], [], .done⟩
  | cons c text =>
    obtain ⟨word, more, htext, hpart⟩ := exists_part depths last c text
    have hpos := List.length_pos_iff.2 hpart.nonempty
    have hlength : word.length + more.length = n := by rw [← hn, htext, List.length_append]
    have hpass {depths' : List Nat} (hover : Over depths last word more.head? depths' fun _ => []) :
        ∃ front parts, Cut depths last (c :: text) front parts := by
      obtain ⟨front, parts, hcut⟩ := ih more.length (by omega) depths' (lastOf last word) more rfl
      exact ⟨word ++ front, parts, htext ▸ .pass hpart.nonempty hover hcut⟩
    cases hpart with
    | once depths' honce => exact hpass honce.over
    | function gap hword hlast hgap hnext =>
      subst hword
      by_cases hparen : more.head? = some '('
      · obtain ⟨rest, rfl⟩ := List.head?_eq_some_iff.1 hparen
        rw [List.length_cons] at hlength
        obtain ⟨front, parts, hcut⟩ := ih rest.length (by omega) depths (some '(') rest rfl
        rw [htext]
        exact ⟨_, _, .site hlast hgap hcut⟩
      · have hover := Over.function depths hlast hgap hnext
        simp only [if_neg hparen] at hover
        exact hpass hover

theorem text_eq (h : Cut depths last text front parts) : text = front ++ parts.flatten := by
  induction h with
  | done => rfl
  | pass _ _ _ ih => rw [ih, List.append_assoc]
  | site _ _ _ ih => rw [ih, List.flatten_cons, List.cons_append]

theorem front_ne_nil (h : Cut depths last text front parts) (hparts : parts ≠ []) : front ≠ [] := by
  cases h with
  | done => exact absurd rfl hparts
  | pass hne => exact List.append_ne_nil_of_left_ne_nil hne _
  | site => exact List.append_ne_nil_of_left_ne_nil (by decide) _

theorem parts_start (h : Cut depths last text front parts) : ∀ part ∈ parts, part.head? = some '(' := by
  induction h with
  | done => simp
  | pass _ _ _ ih => exact ih
  | site _ _ _ ih => exact List.forall_mem_cons.2 ⟨rfl, ih⟩

theorem part_ne_nil (h : Cut depths last text front parts) : ∀ part ∈ parts, part ≠ [] := by
  rintro part hpart rfl
  cases h.parts_start [] hpart

theorem function_infix (h : Cut depths last text front parts) (hparts : parts ≠ []) :
    "function".toList <:+: text := by
  induction h with
  | done => exact absurd rfl hparts
  | pass _ _ _ ih => exact (ih hparts).trans (List.suffix_append _ _).isInfix
  | @site depths last gap rest =>
    rw [List.append_assoc]
    exact (List.prefix_append _ _).isInfix

theorem scanned (h : Cut depths last text front parts) : ∃ depths', Over depths last text none depths'
    fun offset => starts (offset + byteLength front) parts := by
  induction h with
  | @done depths last => exact ⟨depths, .nil⟩
  | @pass depths depths' last word rest front parts _ hover _ ih =>
    obtain ⟨depths'', hrest⟩ := ih
    have hword : Over depths last word (rest.head?.or none) depths' fun _ => [] := by
      rwa [Option.or_none]
    have hboth := hword.append rest hrest
    refine ⟨depths'', ?_⟩
    simpa only [List.nil_append, byteLength_append, Nat.add_assoc] using hboth
  | @site depths last gap rest front parts hlast hgap _ ih =>
    obtain ⟨depths'', hrest⟩ := ih
    have hparen : Over depths (lastOf last ("function".toList ++ gap)) ['('] (rest.head?.or none)
        depths fun _ => [] := (Once.plain plain_paren (.inl (by decide))).over
    have htail := hparen.append rest hrest
    have hfunction := Over.function depths hlast hgap fun _ => by simp [not_word_paren]
    have hboth := hfunction.append (['('] ++ rest) htail
    refine ⟨depths'', ?_⟩
    simpa only [if_true, starts, byteLength, byteLength_append, Nat.add_assoc, List.nil_append,
      List.singleton_append, Nat.add_zero, Nat.zero_add] using hboth

theorem run_eq (h : Cut depths last text front parts) :
    ∃ depths', Scan.run text.length ⟨⟨0, text⟩, depths, last, []⟩ =
      ⟨⟨byteLength text, []⟩, depths', lastOf last text, starts (byteLength front) parts⟩ := by
  obtain ⟨depths', hover⟩ := h.scanned
  refine ⟨depths', ?_⟩
  rw [hover.run_eq, Nat.zero_add]

theorem sites_eq (h : Cut [] none text front parts) : sites text = starts (byteLength front) parts := by
  obtain ⟨depths, hrun⟩ := h.run_eq
  rw [sites, hrun]

end Cut

theorem run_length (text : List Char) :
    (Scan.run text.length ⟨⟨0, text⟩, [], none, []⟩).place.rest = [] := by
  obtain ⟨front, parts, hcut⟩ := Cut.exists_of [] none text
  obtain ⟨depths, hrun⟩ := hcut.run_eq
  rw [hrun]

end FineGrain.AnonymousFunction
