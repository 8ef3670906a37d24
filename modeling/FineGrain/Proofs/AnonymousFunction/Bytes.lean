import FineGrain.Proofs.AnonymousFunction.Scanning
/-!
The scan by bytes. Every mark that the scan looks for is one byte, and the bytes of all other characters
count as parts of words. So it makes no difference if the UTF-8 form is scanned, byte by byte, and an
escape hides one byte and not one character: the scan takes the same steps, and after each of them it
stands at the start of a character.
-/

namespace FineGrain.AnonymousFunction

open Text

variable {c d x : Char} {last last' : Option Char} {depths : List Nat} {offset n : Nat}
  {text rest word more pre : List Char}

/-- The bytes of a character, each as the character with its number. -/
def units (c : Char) : List Char := (String.utf8EncodeChar c).map fun b => Char.ofNat b.toNat

/-- The UTF-8 form of a text, each byte as the character with its number. -/
def bytes (text : List Char) : List Char := text.flatMap units

/-- Where the byte at an offset stands in the bytes, which as characters are longer than one byte if
they are not of ASCII. -/
def byteOffset (text : List Char) (offset : Nat) : Nat := byteLength ((bytes text).take offset)

/-! ### Wide characters -/

/-- A character, or a byte, outside ASCII. -/
def Wide (c : Char) : Prop := 0x80 ≤ c.toNat

theorem Wide.ne (h : Wide c) (hx : x.toNat < 0x80) : c ≠ x := by
  rintro rfl
  exact absurd h (Nat.not_le.2 hx)

theorem Wide.isWordChar (h : Wide c) : isWordChar c = true := by
  have hle : 0x80 ≤ c.toNat := h
  simp [AnonymousFunction.isWordChar, hle]

theorem lt_of_not_word (h : isWordChar c = false) : c.toNat < 0x80 := by
  refine Nat.lt_of_not_le fun hwide => ?_
  rw [Wide.isWordChar hwide] at h
  cases h

theorem Wide.not_isBlank (h : Wide c) : isBlank c = false :=
  Bool.eq_false_iff.2 fun hblank => ne_of_isWordChar h.isWordChar (Plain.of_isBlank hblank).2 rfl

theorem toNat_byte (b : UInt8) : (Char.ofNat b.toNat).toNat = b.toNat := by
  have hb : b.toNat < 256 := UInt8.toNat_lt_size b
  have hvalid : b.toNat.isValidChar := .inl (by omega)
  rw [Char.ofNat, dif_pos hvalid]
  rfl

theorem utf8EncodeChar_wide (h : Wide c) : ∀ b ∈ String.utf8EncodeChar c, 0x80 ≤ b.toNat := by
  have hle : 0x80 ≤ c.val.toNat := h
  have hwide : ¬ c.val.toNat ≤ 127 := by omega
  intro b hb
  unfold String.utf8EncodeChar at hb
  dsimp only at hb
  rw [if_neg hwide] at hb
  -- Two, three or four bytes, with the bits of the number behind a mark of each byte's place.
  split at hb
  · simp only [List.mem_cons, List.not_mem_nil, or_false] at hb
    rcases hb with rfl | rfl <;> rw [UInt8.toNat_ofNat'] <;> omega
  · split at hb
    · simp only [List.mem_cons, List.not_mem_nil, or_false] at hb
      rcases hb with rfl | rfl | rfl <;> rw [UInt8.toNat_ofNat'] <;> omega
    · simp only [List.mem_cons, List.not_mem_nil, or_false] at hb
      rcases hb with rfl | rfl | rfl | rfl <;> rw [UInt8.toNat_ofNat'] <;> omega

theorem units_cases (c : Char) : c.toNat < 0x80 ∧ units c = [c] ∨
    Wide c ∧ units c ≠ [] ∧ ∀ d ∈ units c, Wide d := by
  have hval : c.val.toNat = c.toNat := rfl
  rcases Nat.lt_or_ge c.toNat 0x80 with h | h
  · left
    refine ⟨h, ?_⟩
    have hascii : c.val.toNat ≤ 127 := by omega
    have hbyte : (UInt8.ofNat c.val.toNat).toNat = c.toNat := by
      rw [UInt8.toNat_ofNat']
      omega
    have hencoded : String.utf8EncodeChar c = [UInt8.ofNat c.val.toNat] := if_pos hascii
    rw [units, hencoded, List.map_singleton, hbyte, Char.ofNat_toNat]
  · right
    refine ⟨h, ?_, ?_⟩
    · have hsize := c.utf8Size_pos
      rw [units, ne_eq, List.map_eq_nil_iff, ← List.length_eq_zero_iff, String.length_utf8EncodeChar]
      omega
    · intro d hd
      obtain ⟨b, hb, rfl⟩ := List.mem_map.1 hd
      rw [Wide, toNat_byte]
      exact utf8EncodeChar_wide h b hb

theorem bytes_cons : bytes (c :: rest) = units c ++ bytes rest := List.flatMap_cons

theorem bytes_append : bytes (word ++ more) = bytes word ++ bytes more := List.flatMap_append

theorem bytes_cons_ascii (h : c.toNat < 0x80) : bytes (c :: rest) = c :: bytes rest := by
  rcases units_cases c with ⟨-, hunits⟩ | ⟨hwide, -⟩
  · rw [bytes_cons, hunits]
    rfl
  · exact absurd hwide (Nat.not_le.2 h)

theorem bytes_escape : bytes ('\\' :: c :: rest) = '\\' :: (units c ++ bytes rest) := by
  rw [bytes_cons_ascii (by decide), bytes_cons]

theorem length_bytes : (bytes text).length = byteLength text := by
  induction text with
  | nil => rfl
  | cons c text ih =>
    rw [bytes_cons, List.length_append, ih, units, List.length_map, String.length_utf8EncodeChar]
    rfl

theorem length_le_bytes (text : List Char) : text.length ≤ (bytes text).length := by
  rw [length_bytes]
  induction text with
  | nil => exact Nat.le_refl 0
  | cons c text ih =>
    have hc := c.utf8Size_pos
    rw [List.length_cons, byteLength]
    omega

theorem byteOffset_append : byteOffset (word ++ more) (byteLength word) = byteLength (bytes word) := by
  rw [byteOffset, bytes_append, List.take_left' length_bytes]

theorem bytes_ascii (h : ∀ c ∈ word, c.toNat < 0x80) : bytes word = word := by
  induction word with
  | nil => rfl
  | cons c word ih =>
    obtain ⟨hc, hword⟩ := List.forall_mem_cons.1 h
    rw [bytes_cons_ascii hc, ih hword]

theorem head?_bytes (hx : x.toNat < 0x80) : (bytes text).head? = some x ↔ text.head? = some x := by
  cases text with
  | nil => rfl
  | cons c rest =>
    rcases units_cases c with ⟨hc, -⟩ | ⟨hwide, hne, hunits⟩
    · rw [bytes_cons_ascii hc]
      rfl
    · obtain ⟨d, ds, hd⟩ := List.exists_cons_of_ne_nil hne
      have hdwide : Wide d := hunits d (by rw [hd]; exact List.mem_cons_self)
      rw [bytes_cons, hd]
      exact iff_of_false (fun h => hdwide.ne hx (Option.some.inj h))
        (fun h => hwide.ne hx (Option.some.inj h))

/-! ### Skips -/

/-- A skip takes the same part of a text and of its bytes. -/
def Alike {α : Type} (skip : Nat → List Char → α) (answer : Place → α) (text : List Char) : Prop :=
  ∃ word more, text = word ++ more ∧ ∀ offset,
    skip offset text = answer ⟨offset + byteLength word, more⟩ ∧
      skip offset (bytes text) = answer ⟨offset + byteLength (bytes word), bytes more⟩

section Skips

variable {α : Type} {skip : Nat → List Char → α} {answer : Place → α}

theorem Alike.stop (h : ∀ offset, skip offset text = answer ⟨offset, text⟩ ∧
    skip offset (bytes text) = answer ⟨offset, bytes text⟩) : Alike skip answer text :=
  ⟨[], text, rfl, h⟩

theorem Alike.cons (hchar : ∀ offset, skip offset (c :: rest) = skip (offset + c.utf8Size) rest)
    (hbytes : ∀ offset, skip offset (bytes (c :: rest)) =
      skip (offset + byteLength (units c)) (bytes rest))
    (h : Alike skip answer rest) : Alike skip answer (c :: rest) := by
  obtain ⟨word, more, rfl, hrest⟩ := h
  refine ⟨c :: word, more, rfl, ?_⟩
  intro offset
  rw [hchar, hbytes, (hrest _).1, (hrest _).2, bytes_cons, byteLength_append, byteLength,
    Nat.add_assoc, Nat.add_assoc]
  exact ⟨rfl, rfl⟩

theorem skip_wide (hskip : ∀ d offset rest, Wide d →
    skip offset (d :: rest) = skip (offset + d.utf8Size) rest) (hword : ∀ d ∈ word, Wide d) :
    skip offset (word ++ rest) = skip (offset + byteLength word) rest := by
  induction word generalizing offset with
  | nil => rfl
  | cons d word ih =>
    obtain ⟨hd, hword⟩ := List.forall_mem_cons.1 hword
    rw [List.cons_append, hskip d offset _ hd, ih hword, byteLength, Nat.add_assoc]

theorem Alike.char (hskip : ∀ d offset rest, Wide d →
      skip offset (d :: rest) = skip (offset + d.utf8Size) rest)
    (hascii : c.toNat < 0x80 → ∀ offset tail, (tail = rest ∨ tail = bytes rest) →
      skip offset (c :: tail) = skip (offset + c.utf8Size) tail)
    (h : Alike skip answer rest) : Alike skip answer (c :: rest) := by
  rcases units_cases c with ⟨hc, hunits⟩ | ⟨hwide, -, hunits⟩
  · apply Alike.cons (fun offset => hascii hc offset rest (.inl rfl)) _ h
    intro offset
    rw [bytes_cons, hunits]
    exact hascii hc offset _ (.inr rfl)
  · apply Alike.cons (fun offset => hskip c offset rest hwide) _ h
    intro offset
    rw [bytes_cons]
    exact skip_wide hskip hunits

theorem Alike.mark (word : List Char) (hword : ∀ c ∈ word, c.toNat < 0x80)
    (h : ∀ offset tail, skip offset (word ++ tail) = answer ⟨offset + byteLength word, tail⟩) :
    Alike skip answer (word ++ more) := by
  refine ⟨word, more, rfl, fun offset => ⟨h offset more, ?_⟩⟩
  rw [bytes_append, bytes_ascii hword]
  exact h offset _

/-- An escape hides a character or only its first byte: the bytes behind that one are passed as well. -/
theorem Alike.escape (hskip : ∀ d offset rest, Wide d →
      skip offset (d :: rest) = skip (offset + d.utf8Size) rest)
    (hescape : ∀ d offset rest, skip offset ('\\' :: d :: rest) = skip (offset + 1 + d.utf8Size) rest)
    (h : Alike skip answer rest) : Alike skip answer ('\\' :: c :: rest) := by
  have hhidden : ∀ offset, skip offset ('\\' :: (units c ++ bytes rest)) =
      skip (offset + 1 + byteLength (units c)) (bytes rest) := by
    intro offset
    rcases units_cases c with ⟨-, hunits⟩ | ⟨-, hne, hunits⟩
    · rw [hunits]
      exact hescape c offset _
    · obtain ⟨d, ds, hd⟩ := List.exists_cons_of_ne_nil hne
      rw [hd, List.cons_append, hescape, byteLength, ← Nat.add_assoc]
      apply skip_wide hskip
      intro e he
      exact hunits e (by rw [hd]; exact List.mem_cons_of_mem _ he)
  obtain ⟨word, more, rfl, hrest⟩ := h
  refine ⟨'\\' :: c :: word, more, rfl, ?_⟩
  intro offset
  have hsize : Char.utf8Size '\\' = 1 := rfl
  rw [hescape, (hrest _).1, bytes_escape, bytes_escape, hhidden, (hrest _).2, byteLength, byteLength,
    byteLength, byteLength_append, hsize]
  simp only [Nat.add_assoc, and_self]

end Skips

theorem skipQuoted_wide {quote : Char} (hq : quote = '"' ∨ quote = '\'') (d : Char) (offset : Nat)
    (rest : List Char) (hd : Wide d) :
    skipQuoted quote offset (d :: rest) = skipQuoted quote (offset + d.utf8Size) rest := by
  apply skipQuoted_char (hd.ne (by decide)) (hd.ne (by decide))
  rcases hq with rfl | rfl <;> exact hd.ne (by decide)

theorem skipTemplate_wide (d : Char) (offset : Nat) (rest : List Char) (hd : Wide d) :
    skipTemplate offset (d :: rest) = skipTemplate (offset + d.utf8Size) rest :=
  skipTemplate_char (hd.ne (by decide)) (.inl (hd.ne (by decide))) (hd.ne (by decide))

theorem skipBlockComment_wide (d : Char) (offset : Nat) (rest : List Char) (hd : Wide d) :
    skipBlockComment offset (d :: rest) = skipBlockComment (offset + d.utf8Size) rest :=
  skipBlockComment_char (.inl (hd.ne (by decide)))

theorem alike_skipQuoted {quote : Char} (hq : quote = '"' ∨ quote = '\'') (text : List Char) :
    Alike (skipQuoted quote) id text := by
  fun_induction skipQuoted quote 0 text with
  | case1 => exact .stop fun offset => ⟨rfl, rfl⟩
  | case2 start c rest ih =>
    exact ih.escape (skipQuoted_wide hq) fun d offset rest => by rw [skipQuoted]
  | case3 start c rest hline hn =>
    cases beq_iff_eq.1 hn
    apply Alike.stop
    intro offset
    rw [bytes_cons_ascii (by decide), skipQuoted_lineFeed, skipQuoted_lineFeed]
    exact ⟨rfl, rfl⟩
  | case4 start c rest hline hn hquote =>
    cases beq_iff_eq.1 hquote
    refine Alike.mark [quote] ?_ fun offset tail => skipQuoted_close hq
    rcases hq with rfl | rfl <;> simp
  | case5 start c rest hpair hn hquote ih =>
    apply ih.char (skipQuoted_wide hq)
    intro _ offset tail htail
    by_cases hb : c = '\\'
    · subst hb
      obtain rfl := eq_nil_of_not_cons hpair
      obtain rfl : tail = [] := htail.elim id id
      rcases hq with rfl | rfl <;> rfl
    · exact skipQuoted_char hb (by simpa using hn) (by simpa using hquote)

theorem alike_skipTemplate (text : List Char) :
    ∃ opens, Alike skipTemplate (fun p => (opens, p)) text := by
  fun_induction skipTemplate 0 text with
  | case1 => exact ⟨false, .stop fun offset => ⟨rfl, rfl⟩⟩
  | case2 start c rest ih =>
    obtain ⟨opens, ih⟩ := ih
    exact ⟨opens, ih.escape skipTemplate_wide fun d offset rest => by rw [skipTemplate]⟩
  | case3 start rest =>
    exact ⟨true, .mark ['$', '\x7b'] (by simp) fun offset tail => rfl⟩
  | case4 start c rest hpair hopen hquote =>
    cases beq_iff_eq.1 hquote
    exact ⟨false, .mark ['\x60'] (by simp) fun offset tail => skipTemplate_close⟩
  | case5 start c rest hpair hopen hquote ih =>
    obtain ⟨opens, ih⟩ := ih
    refine ⟨opens, ih.char skipTemplate_wide ?_⟩
    intro _ offset tail htail
    have hhead : tail.head? = some '\x7b' → rest.head? = some '\x7b' := by
      rcases htail with rfl | rfl
      · exact id
      · exact (head?_bytes (by decide)).1
    by_cases hb : c = '\\'
    -- A backslash with nothing behind it to hide.
    · subst hb
      obtain rfl := eq_nil_of_not_cons hpair
      obtain rfl : tail = [] := htail.elim id id
      rfl
    · exact skipTemplate_char hb ((ne_or_head?_ne hopen).imp_right (mt hhead)) (by simpa using hquote)

theorem alike_skipBlockComment (text : List Char) : Alike skipBlockComment id text := by
  fun_induction skipBlockComment 0 text with
  | case1 => exact .stop fun offset => ⟨rfl, rfl⟩
  | case2 start rest => exact .mark ['*', '/'] (by simp) fun offset tail => rfl
  | case3 start c rest hend ih =>
    apply ih.char skipBlockComment_wide
    intro _ offset tail htail
    have hhead : tail.head? = some '/' → rest.head? = some '/' := by
      rcases htail with rfl | rfl
      · exact id
      · exact (head?_bytes (by decide)).1
    exact skipBlockComment_char ((ne_or_head?_ne hend).imp_right (mt hhead))

theorem alike_skipWhile {q : Char → Bool} (hq : ∀ d, Wide d → q d = true) (text : List Char) :
    Alike (Place.skipWhile q) id text := by
  induction text with
  | nil => exact .stop fun offset => ⟨rfl, rfl⟩
  | cons c rest ih =>
    by_cases hc : q c = true
    · apply ih.char
      · intro d offset rest hd
        rw [Place.skipWhile, if_pos (hq d hd)]
      · intro _ offset tail _
        rw [Place.skipWhile, if_pos hc]
    · have hascii : c.toNat < 0x80 := Nat.lt_of_not_le fun hwide => hc (hq c hwide)
      apply Alike.stop
      intro offset
      rw [bytes_cons_ascii hascii, Place.skipWhile, Place.skipWhile, if_neg hc, if_neg hc]
      exact ⟨rfl, rfl⟩

/-! ### Words and gaps -/

theorem isWordChar_bytes (hword : ∀ c ∈ word, isWordChar c = true) :
    ∀ d ∈ bytes word, isWordChar d = true := by
  intro d hd
  obtain ⟨c, hc, hd⟩ := List.mem_flatMap.1 hd
  rcases units_cases c with ⟨-, hunits⟩ | ⟨-, -, hunits⟩
  · rw [hunits, List.mem_singleton] at hd
    rw [hd]
    exact hword c hc
  · exact (hunits d hd).isWordChar

theorem not_word_bytes (h : ∀ c ∈ text.head?, isWordChar c = false) :
    ∀ d ∈ (bytes text).head?, isWordChar d = false := by
  cases text with
  | nil => exact h
  | cons c rest =>
    rw [bytes_cons_ascii (lt_of_not_word (h c rfl))]
    exact h

theorem bytes_eq_iff (hword : ∀ c ∈ word, c.toNat < 0x80) : bytes text = word ↔ text = word := by
  constructor
  · intro h
    induction text generalizing word with
    | nil => exact h
    | cons c rest ih =>
      subst h
      rcases units_cases c with ⟨hc, -⟩ | ⟨-, hne, hunits⟩
      · rw [bytes_cons_ascii hc] at hword ⊢
        exact congrArg (c :: ·) (ih (List.forall_mem_cons.1 hword).2 rfl)
      · obtain ⟨d, hd⟩ := List.exists_mem_of_ne_nil _ hne
        have hascii := hword d (by rw [bytes_cons]; exact List.mem_append_left _ hd)
        exact absurd (hunits d hd) (Nat.not_le.2 hascii)
  · rintro rfl
    exact bytes_ascii hword

theorem gap_bytes {gap : List Char} (h : Gap gap text.head?) :
    bytes gap = gap ∧ Gap gap (bytes text).head? := by
  refine ⟨bytes_ascii ?_, ?_, ?_⟩
  · intro c hc
    refine Nat.lt_of_not_le fun hwide => ?_
    rcases h.blanks c hc with hblank | rfl
    · rw [Wide.not_isBlank hwide] at hblank
      cases hblank
    · exact absurd hwide (by decide)
  · intro d hd
    rcases Nat.lt_or_ge d.toNat 0x80 with hascii | hwide
    · exact h.ends d ((head?_bytes hascii).1 hd)
    · exact Wide.not_isBlank hwide
  · exact h.star.imp (fun hstar => ⟨hstar.1, mt (head?_bytes (by decide)).1 hstar.2⟩) id

theorem lastOf_wide (hne : word ≠ []) (hword : ∀ d ∈ word, Wide d) : lastOf last word ≠ some '.' := by
  rcases List.eq_nil_or_concat word with rfl | ⟨init, d, rfl⟩
  · exact absurd rfl hne
  · have hd : Wide d := hword d (by simp)
    rw [List.concat_eq_append, lastOf_append]
    change (if isBlank d then lastOf last init else some d) ≠ some '.'
    rw [hd.not_isBlank, if_neg Bool.false_ne_true]
    exact fun h => hd.ne (by decide) (Option.some.inj h)

theorem lastOf_bytes (h : last' = some '.' ↔ last = some '.') :
    lastOf last' (bytes word) = some '.' ↔ lastOf last word = some '.' := by
  induction word generalizing last last' with
  | nil => exact h
  | cons c word ih =>
    rw [bytes_cons, lastOf_append]
    apply ih
    change _ ↔ (if isBlank c then last else some c) = some '.'
    rcases units_cases c with ⟨-, hunits⟩ | ⟨hwide, hne, hunits⟩
    · rw [hunits]
      change (if isBlank c then last' else some c) = some '.' ↔ _
      split
      · exact h
      · rfl
    · rw [hwide.not_isBlank, if_neg Bool.false_ne_true]
      exact iff_of_false (lastOf_wide hne hunits) fun h => hwide.ne (by decide) (Option.some.inj h)

/-! ### The steps of the two scans -/

/-- How the scan of a text and that of its bytes stand to each other once `pre` has been passed. -/
structure Mirrors (text pre : List Char) (s s' : Scan) : Prop where
  split : text = pre ++ s.place.rest
  offset : s.place.offset = byteLength pre
  rest : s'.place.rest = bytes s.place.rest
  offset' : s'.place.offset = byteLength (bytes pre)
  depths : s'.depths = s.depths
  last : s'.last = some '.' ↔ s.last = some '.'
  sites : s'.sites = s.sites.map (byteOffset text)

namespace Mirrors

variable {s s' : Scan} {found found' : List Nat}

theorem moveTo (h : Mirrors text pre s s') (depths : List Nat) (hrest : s.place.rest = word ++ more)
    (hfound : found' = found.map (byteOffset text)) :
    Mirrors text (pre ++ word)
      (s.moveTo ⟨s.place.offset + byteLength word, more⟩ depths found)
      (s'.moveTo ⟨s'.place.offset + byteLength (bytes word), bytes more⟩ depths found') := by
  constructor
  · rw [h.split, hrest, List.append_assoc]
    rfl
  · change s.place.offset + byteLength word = _
    rw [h.offset, byteLength_append]
  · rfl
  · change s'.place.offset + byteLength (bytes word) = _
    rw [h.offset', bytes_append, byteLength_append]
  · rfl
  · change lastSignificant _ _ _ _ = some '.' ↔ lastSignificant _ _ _ _ = some '.'
    rw [h.rest, hrest, bytes_append, lastSignificant_append, lastSignificant_append]
    exact lastOf_bytes h.last
  · exact hfound

theorem skip {skip : Nat → List Char → Place} (h : Mirrors text pre s s') (mark : List Char)
    (depths : List Nat) (hrest : s.place.rest = mark ++ rest) (hmark : ∀ c ∈ mark, c.toNat < 0x80)
    (hskip : Alike skip id rest)
    (hstep : ∀ offset last sites tail, (tail = rest ∨ tail = bytes rest) →
      (Scan.mk ⟨offset, mark ++ tail⟩ s.depths last sites).step =
        (Scan.mk ⟨offset, mark ++ tail⟩ s.depths last sites).moveTo
          (skip (offset + byteLength mark) tail) depths sites) :
    ∃ pre', Mirrors text pre' s.step s'.step := by
  obtain ⟨word, more, rfl, htakes⟩ := hskip
  have hsplit : s.place.rest = (mark ++ word) ++ more := by rw [hrest, List.append_assoc]
  have hmove := h.moveTo depths hsplit h.sites
  have hbytes : s'.place.rest = mark ++ bytes (word ++ more) := by
    rw [h.rest, hrest, bytes_append, bytes_ascii hmark]
  have hs : s.step = s.moveTo ⟨s.place.offset + byteLength (mark ++ word), more⟩ depths s.sites := by
    have heq := hstep s.place.offset s.last s.sites _ (.inl rfl)
    rw [← hrest, (htakes _).1, id, Nat.add_assoc, ← byteLength_append] at heq
    exact heq
  have hs' : s'.step =
      s'.moveTo ⟨s'.place.offset + byteLength (bytes (mark ++ word)), bytes more⟩ depths s'.sites := by
    have heq := hstep s'.place.offset s'.last s'.sites _ (.inr rfl)
    rw [← hbytes, ← h.depths, (htakes _).2, id, Nat.add_assoc, ← byteLength_append] at heq
    rw [bytes_append, bytes_ascii hmark]
    exact heq
  exact ⟨_, hs ▸ hs' ▸ hmove⟩

theorem siteAfter (h : Mirrors text pre s s') (hrest : s.place.rest = word ++ more) :
    siteAfter s' (bytes word) ⟨s'.place.offset + byteLength (bytes word), bytes more⟩ =
      (siteAfter s word ⟨s.place.offset + byteLength word, more⟩).map (byteOffset text) := by
  have hfunction : bytes word = "function".toList ↔ word = "function".toList :=
    bytes_eq_iff (by simp)
  have hname (word : List Char) : String.ofList word = "function" ↔ word = "function".toList := by
    rw [← String.toList_inj, String.toList_ofList]
  rw [AnonymousFunction.siteAfter, AnonymousFunction.siteAfter]
  simp only [Bool.and_eq_true, beq_iff_eq, bne_iff_ne, hname, hfunction, ne_eq, h.last]
  by_cases hword : word = "function".toList ∧ ¬ s.last = some '.'
  · obtain ⟨gap, more, rfl, hgap⟩ := exists_gap more
    obtain ⟨hgap', hnext⟩ := gap_bytes hgap
    have hoffset : byteOffset text (s.place.offset + byteLength word + byteLength gap) =
        s'.place.offset + byteLength (bytes word) + byteLength (bytes gap) := by
      rw [h.offset, h.offset', h.split, hrest, ← byteLength_append, ← byteLength_append,
        ← List.append_assoc, ← List.append_assoc, byteOffset_append, bytes_append, bytes_append,
        byteLength_append, byteLength_append]
    rw [if_pos hword, if_pos hword, openParen?_gap hgap, bytes_append, hgap', openParen?_gap hnext]
    simp only [head?_bytes (x := '(') (by decide)]
    split
    · rw [Option.toList_some, Option.toList_some, List.map_singleton, hoffset, hgap']
    · rfl
  · rw [if_neg hword, if_neg hword]
    rfl

theorem ofWord (h : Mirrors text pre s s') (hrest : s.place.rest = word ++ more) (hne : word ≠ [])
    (hword : ∀ d ∈ word, isWordChar d = true) (hmore : ∀ d ∈ more.head?, isWordChar d = false) :
    Mirrors text (pre ++ word) s.step s'.step := by
  have hne' : bytes word ≠ [] := mt (bytes_eq_iff (by simp)).1 hne
  have hrest' : s'.place.rest = bytes word ++ bytes more := by
    rw [h.rest, hrest, bytes_append]
  rw [step_word hrest hne hword hmore,
    step_word hrest' hne' (isWordChar_bytes hword) (not_word_bytes hmore), h.depths]
  apply h.moveTo s.depths hrest
  rw [List.map_append, ← h.sites, ← h.siteAfter hrest]

theorem template (h : Mirrors text pre s s') (hrest : s.place.rest = c :: rest)
    (hc : c = '\x60' ∨ c = '\x7d')
    (hstep : ∀ offset last sites tail, (Scan.mk ⟨offset, c :: tail⟩ s.depths last sites).step =
      (Scan.mk ⟨offset, c :: tail⟩ s.depths last sites).template ⟨offset + 1, tail⟩ depths) :
    ∃ pre', Mirrors text pre' s.step s'.step := by
  obtain ⟨opens, word, more, hsplit, htakes⟩ := alike_skipTemplate rest
  have hskip : Alike (fun offset tail => (skipTemplate offset tail).2) id rest := by
    refine ⟨word, more, hsplit, fun offset => ⟨?_, ?_⟩⟩
    · exact congrArg Prod.snd (htakes offset).1
    · exact congrArg Prod.snd (htakes offset).2
  have hmark : (∀ d ∈ [c], d.toNat < 0x80) ∧ c.utf8Size = 1 := by
    rcases hc with rfl | rfl <;> exact ⟨by simp, rfl⟩
  apply h.skip [c] (if opens then 0 :: depths else depths) hrest hmark.1 hskip
  intro offset last sites tail htail
  have hopens : skipTemplate (offset + 1) tail = (opens, (skipTemplate (offset + 1) tail).2) := by
    rcases htail with rfl | rfl
    · rw [(htakes (offset + 1)).1]
    · rw [(htakes (offset + 1)).2]
  rw [List.singleton_append, hstep, Scan.template, byteLength, hmark.2, hopens]
  cases opens <;> rfl

theorem step (h : Mirrors text pre s s') : ∃ pre', Mirrors text pre' s.step s'.step := by
  cases hrest : s.place.rest with
  | nil =>
    have hrest' : s'.place.rest = [] := by
      rw [h.rest, hrest]
      rfl
    refine ⟨pre, ?_⟩
    rw [Scan.step, hrest, Scan.step, hrest']
    exact h
  | cons c rest =>
    -- The first character decides on the step, and it decides alike on the text and on its bytes.
    cases move s.depths c rest with
    | word hc =>
      obtain ⟨word, more, rfl, hword, hmore⟩ := exists_takeWhile isWordChar rest
      rw [← List.cons_append] at hrest
      exact ⟨_, h.ofWord hrest (List.cons_ne_nil _ _) (List.forall_mem_cons.2 ⟨hc, hword⟩) hmore⟩
    | string hc =>
      have hmark : ∀ d ∈ [c], d.toNat < 0x80 := by rcases hc with rfl | rfl <;> simp
      refine h.skip [c] s.depths hrest hmark (alike_skipQuoted hc rest) ?_
      intro offset last sites tail _
      rcases hc with rfl | rfl <;> rfl
    | lineComment tail hc hline =>
      subst hc hline
      refine h.skip ['/', '/'] s.depths hrest (by simp)
        (alike_skipWhile (q := (· != '\n')) ?_ tail) fun _ _ _ _ _ => rfl
      intro d hd
      exact bne_iff_ne.2 (hd.ne (by decide))
    | blockComment tail hc hblock =>
      subst hc hblock
      exact h.skip ['/', '*'] s.depths hrest (by simp) (alike_skipBlockComment tail)
        fun _ _ _ _ _ => rfl
    | template depths' hc hstep => exact h.template hrest hc hstep
    | single depths' hc hstep =>
      have hskip : Alike Place.mk id rest := .stop fun _ => ⟨rfl, rfl⟩
      refine h.skip [c] depths' hrest (by simpa using lt_of_not_word hc) hskip ?_
      have hascii : ∀ x ∈ ['/', '*'], x.toNat < 0x80 := by simp
      intro offset last sites tail htail
      apply hstep
      intro x hx hnext
      rcases htail with rfl | rfl
      · exact hnext
      · exact (head?_bytes (hascii x hx)).1 hnext

theorem run (h : Mirrors text pre s s') (n : Nat) :
    ∃ pre', Mirrors text pre' (Scan.run n s) (Scan.run n s') := by
  induction n generalizing pre s s' with
  | zero => exact ⟨pre, h⟩
  | succ n ih =>
    have hempty : s'.place.rest.isEmpty = s.place.rest.isEmpty := by
      rw [h.rest, Bool.eq_iff_iff, List.isEmpty_iff, List.isEmpty_iff]
      exact bytes_eq_iff (by simp)
    rw [Scan.run, Scan.run, hempty]
    split
    · exact ⟨pre, h⟩
    · obtain ⟨pre', hstep⟩ := h.step
      exact ih hstep

end Mirrors

theorem mirrors_run (text : List Char) (n : Nat) : ∃ pre, Mirrors text pre
    (Scan.run n ⟨⟨0, text⟩, [], none, []⟩) (Scan.run n ⟨⟨0, bytes text⟩, [], none, []⟩) := by
  have hstart : Mirrors text [] ⟨⟨0, text⟩, [], none, []⟩ ⟨⟨0, bytes text⟩, [], none, []⟩ :=
    ⟨rfl, rfl, rfl, rfl, rfl, .rfl, rfl⟩
  exact hstart.run n

theorem run_bytes (text : List Char) (n : Nat) :
    let place := (Scan.run n ⟨⟨0, text⟩, [], none, []⟩).place
    dropBytes place.offset text = some place.rest ∧
      (Scan.run n ⟨⟨0, bytes text⟩, [], none, []⟩).place.rest = bytes place.rest := by
  intro place
  obtain ⟨pre, hmirrors⟩ := mirrors_run text n
  refine ⟨?_, hmirrors.rest⟩
  rw [hmirrors.offset, hmirrors.split]
  exact dropBytes_append pre place.rest

theorem sites_bytes (text : List Char) : sites (bytes text) = (sites text).map (byteOffset text) := by
  obtain ⟨pre, hmirrors⟩ := mirrors_run text text.length
  have hrest := run_length text
  have hrest' := hmirrors.rest
  rw [hrest] at hrest'
  obtain ⟨k, hk⟩ := Nat.exists_eq_add_of_le (length_le_bytes text)
  rw [sites, hk, run_add, run_of_rest_nil hrest']
  exact hmirrors.sites

end FineGrain.AnonymousFunction
