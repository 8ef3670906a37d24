import FineGrain.Proofs.AnonymousFunction.Scanning
/-!
Skipped text in the place of other skipped text. What stands in front of it is scanned without a look
into it, and the scan goes on behind it at the depths it came with. All that is carried over its end is
whether its last significant character is a dot, and only a line comment can end with one: so a `function`
on the next line is taken for a property name behind one comment and for a literal behind another.
-/

namespace FineGrain.AnonymousFunction

open Text

variable {x : Char} {last last' next : Option Char} {depths depths' : List Nat} {offset k k' : Nat}
  {text front rest body : List Char} {found : Nat → List Nat} {s s' : Scan}

/-! ### Up to skipped text -/

/-- The characters that skipped text starts with. -/
def IsMark (x : Char) : Prop := x ∈ ['/', '"', '\'', '\x60']

theorem IsMark.ne {c : Char} (hx : IsMark x)
    (hc : isWordChar c = true ∨ isBlank c = true ∨ c ∈ ['*', '(']) : c ≠ x := by
  rintro rfl
  simp only [IsMark, List.mem_cons, List.not_mem_nil, or_false] at hx
  rcases hx with rfl | rfl | rfl | rfl <;> revert hc <;> decide

theorem IsMark.not_blank (hx : IsMark x) : isBlank x = false := by
  by_contra hblank
  exact hx.ne (.inr (.inl (Bool.of_not_eq_false hblank))) rfl

theorem offset_le_step (s : Scan) : s.place.offset ≤ s.step.place.offset := by
  obtain ⟨⟨offset, text⟩, depths, last, sites⟩ := s
  cases text with
  | nil => exact Nat.le_refl _
  | cons c text =>
    obtain ⟨word, more, htext, hpart⟩ := exists_part depths last c text
    rw [htext]
    cases hpart with
    | once depths' honce =>
      rw [honce.step offset more sites rfl]
      exact Nat.le_add_right _ _
    | function gap hword hlast hgap hnext =>
      have hafter : ∀ c ∈ (gap ++ more).head?, isWordChar c = false := by
        rw [List.head?_append]
        exact hgap.not_word hnext
      rw [hword, List.append_assoc, step_word rfl (by decide) (List.all_eq_true.1 rfl) hafter]
      exact Nat.le_add_right _ _

theorem offset_le_run (s : Scan) (k : Nat) : s.place.offset ≤ (Scan.run k s).place.offset := by
  induction k generalizing s with
  | zero => exact Nat.le_refl _
  | succ k ih =>
    rw [Scan.run]
    split
    · exact Nat.le_refl _
    · exact Nat.le_trans (offset_le_step s) (ih s.step)

theorem exists_run_of_le (h : (Scan.run k s).place.offset = offset) (hs : Scan.run k' s = s')
    (hle : s'.place.offset ≤ offset) : ∃ n, (Scan.run n s').place.offset = offset := by
  rcases Nat.le_total k' k with hk | hk
  · obtain ⟨n, rfl⟩ := Nat.exists_eq_add_of_le hk
    exact ⟨n, by rwa [run_add, hs] at h⟩
  · obtain ⟨n, rfl⟩ := Nat.exists_eq_add_of_le hk
    rw [run_add] at hs
    have hge := offset_le_run (Scan.run k s) n
    rw [hs, h] at hge
    exact ⟨0, Nat.le_antisymm hle hge⟩

/-- A part with other text between it and skipped text is passed over, and a site in it lies in front
of the skipped text. -/
theorem Part.over_within {word back : List Char} (hx : IsMark x) (hrest : rest.head? = some x)
    (h : Part depths last word (back ++ rest).head?) :
    ∃ depths' found, Over depths last word (back.head?.or (some x)) depths' found ∧
      ∀ offset, ∀ site ∈ found offset, site < offset + byteLength (word ++ back) := by
  rw [List.head?_append, hrest] at h
  cases h with
  | once depths' honce => exact ⟨depths', _, honce.over, fun _ _ hsite => nomatch hsite⟩
  | function gap hword hlast hgap hnext =>
    subst hword
    refine ⟨depths, _, .function depths hlast hgap hnext, fun offset site hsite => ?_⟩
    by_cases hparen : back.head?.or (some x) = some '('
    · have hback : byteLength back ≠ 0 := by
        intro hzero
        rw [byteLength_eq_zero hzero] at hparen
        exact hx.ne (c := '(') (.inr (.inr (by decide))) (Option.some.inj hparen).symm
      rw [if_pos hparen, List.mem_singleton] at hsite
      rw [byteLength_append]
      omega
    · rw [if_neg hparen] at hsite
      cases hsite

theorem Part.not_over {word tail more : List Char} (hx : IsMark x)
    (h : Part depths last word more.head?) (hword : word = front ++ x :: tail) (hfront : front ≠ [])
    {sites : List Nat} :
    (Scan.run k ⟨⟨offset, word ++ more⟩, depths, last, sites⟩).place.offset ≠
      offset + byteLength front := by
  intro hrun
  have hlong : byteLength word = byteLength front + (x.utf8Size + byteLength tail) := by
    rw [hword, byteLength_append, byteLength]
  have hpos := x.utf8Size_pos
  cases h with
  | once depths' honce =>
    cases k with
    | zero =>
      have hzero : offset = offset + byteLength front := hrun
      exact hfront (byteLength_eq_zero (by omega))
    | succ k =>
      have hstep : (Scan.run 1 ⟨⟨offset, word ++ more⟩, depths, last, sites⟩).place.offset = _ :=
        congrArg (·.place.offset) (run_one honce.nonempty)
      rw [Nat.add_comm, run_add] at hrun
      have hle := offset_le_run (Scan.run 1 ⟨⟨offset, word ++ more⟩, depths, last, sites⟩) k
      rw [hrun, hstep, honce.step offset more sites rfl] at hle
      have hle : offset + byteLength word ≤ offset + byteLength front := hle
      omega
  | function gap hfunction hlast hgap =>
    have hmem : x ∈ "function".toList ++ gap := by
      rw [← hfunction, hword]
      simp
    refine hx.ne ?_ rfl
    rcases List.mem_append.1 hmem with hmem | hmem
    · exact .inl (List.all_eq_true.1 (by rfl : "function".toList.all isWordChar = true) x hmem)
    · rcases hgap.blanks x hmem with hblank | rfl
      · exact .inr (.inl hblank)
      · exact .inr (.inr List.mem_cons_self)

/-- A text up to a place where the scan stands in front of skipped text is passed over whatever that
text is, and the sites in it are found there. -/
theorem exists_over (hx : IsMark x) (hrest : rest.head? = some x) {sites : List Nat}
    (hrun : (Scan.run k ⟨⟨offset, front ++ rest⟩, depths, last, sites⟩).place.offset =
      offset + byteLength front) :
    ∃ depths' found, Over depths last front (some x) depths' found ∧
      ∀ offset, ∀ site ∈ found offset, site < offset + byteLength front := by
  -- Parts are passed one by one; the induction is on the characters that are left in front.
  induction hn : front.length using Nat.strong_induction_on
    generalizing front offset depths last sites k with
  | _ n ih =>
  cases front with
  | nil => exact ⟨depths, _, .nil, by simp⟩
  | cons c front =>
    obtain ⟨word, more, htext, hpart⟩ := exists_part depths last c (front ++ rest)
    have hwithin {back : List Char} (hfront : c :: front = word ++ back) (hmore : more = back ++ rest) :
        ∃ depths' found, Over depths last (c :: front) (some x) depths' found ∧
          ∀ offset, ∀ site ∈ found offset, site < offset + byteLength (c :: front) := by
      have hlength : word.length + back.length = n := by rw [← hn, hfront, List.length_append]
      have hpos := List.length_pos_iff.2 hpart.nonempty
      rw [hmore] at hpart
      obtain ⟨depths', found, hover, hfound⟩ := hpart.over_within hx hrest
      obtain ⟨k', -, hrun'⟩ := hover offset more sites (by rw [hmore, List.head?_append, hrest])
      rw [← htext, ← List.cons_append] at hrun'
      obtain ⟨k'', hreached⟩ := exists_run_of_le hrun hrun'
        (by rw [hfront, byteLength_append]; dsimp only; omega)
      rw [hmore, hfront, byteLength_append, ← Nat.add_assoc] at hreached
      obtain ⟨depths'', found', hover', hfound'⟩ := ih back.length (by omega) hreached rfl
      rw [hfront]
      refine ⟨depths'', _, hover.append back hover', fun offset site hsite => ?_⟩
      rcases List.mem_append.1 hsite with hsite | hsite
      · exact hfound offset site hsite
      · have hlt := hfound' _ site hsite
        rw [byteLength_append]
        omega
    -- The part ends in the front text, or it would reach into the skipped text, where the scan stands.
    rcases List.append_eq_append_iff.1 (show (c :: front) ++ rest = word ++ more from htext) with
      ⟨tail, hword, hmore⟩ | ⟨back, hfront, hmore⟩
    · cases tail with
      | nil => exact @hwithin [] (by simpa using hword.symm) (by simpa using hmore.symm)
      | cons d tail =>
        rw [hmore] at hrest
        cases hrest
        rw [List.cons_append, htext] at hrun
        exact absurd hrun (hpart.not_over hx hword (List.cons_ne_nil c front))
    · exact hwithin hfront hmore

/-! ### Over skipped text -/

/-- Text that the scan skips. -/
inductive Kind where
  | lineComment
  | blockComment
  | string (quote : Char)
  | template
deriving DecidableEq, Repr

/-- The character that text of a kind starts with. -/
def Kind.mark : Kind → Char
  | .lineComment | .blockComment => '/'
  | .string quote => quote
  | .template => '\x60'

/-- What can stand between the marks of a string or of a template: a backslash hides the character behind
it, and nothing else ends the text. -/
inductive Body (ends : Char → Option Char → Prop) : List Char → Prop
  | nil : Body ends []
  | escaped {c : Char} {body : List Char} (h : Body ends body) : Body ends ('\\' :: c :: body)
  | char {c : Char} {body : List Char} (hc : c ≠ '\\') (hends : ¬ ends c body.head?)
      (h : Body ends body) : Body ends (c :: body)

def endsString (quote c : Char) (_ : Option Char) : Prop := c = '\n' ∨ c = quote

/-- What ends template text: its mark, or a substitution. -/
def endsTemplate (c : Char) (next : Option Char) : Prop := c = '\x60' ∨ c = '$' ∧ next = some '\x7b'

/-- Skipped text from its start to its end, with `next` behind it. A line comment goes up to the end of
the line, and a template is one without substitutions. -/
def Complete (next : Option Char) (text : List Char) : Kind → Prop
  | .lineComment => (next = none ∨ next = some '\n') ∧
      ∃ body, text = '/' :: '/' :: body ∧ ∀ c ∈ body, c ≠ '\n'
  | .blockComment => ∃ body, text = '/' :: '*' :: (body ++ ['*', '/']) ∧ ¬ ['*', '/'] <:+: body
  | .string quote => (quote = '"' ∨ quote = '\'') ∧
      ∃ body, text = quote :: (body ++ [quote]) ∧ Body (endsString quote) body
  | .template => ∃ body, text = '\x60' :: (body ++ ['\x60']) ∧ Body endsTemplate body

theorem Body.skipQuoted {quote : Char} (h : Body (endsString quote) body)
    (hq : quote = '"' ∨ quote = '\'') : AnonymousFunction.skipQuoted quote offset (body ++ quote :: rest) =
      ⟨offset + byteLength body + quote.utf8Size, rest⟩ := by
  induction h generalizing offset with
  | nil => exact skipQuoted_close hq
  | @escaped c body _ ih =>
    rw [List.cons_append, List.cons_append, AnonymousFunction.skipQuoted, ih, byteLength, byteLength,
      Nat.add_assoc offset, Nat.add_assoc offset, Nat.add_assoc 1]
    rfl
  | @char c body hc hends _ ih =>
    rw [endsString, not_or] at hends
    rw [List.cons_append, skipQuoted_char hc hends.1 hends.2, ih, byteLength, Nat.add_assoc offset]

theorem Body.skipTemplate (h : Body endsTemplate body) :
    AnonymousFunction.skipTemplate offset (body ++ '\x60' :: rest) =
      (false, ⟨offset + byteLength body + 1, rest⟩) := by
  induction h generalizing offset with
  | nil => exact skipTemplate_close
  | @escaped c body _ ih =>
    rw [List.cons_append, List.cons_append, AnonymousFunction.skipTemplate, ih, byteLength, byteLength,
      Nat.add_assoc offset, Nat.add_assoc offset, Nat.add_assoc 1]
    rfl
  | @char c body hc hends _ ih =>
    rw [endsTemplate, not_or, not_and_or] at hends
    have hdollar : c ≠ '$' ∨ (body ++ '\x60' :: rest).head? ≠ some '\x7b' := by
      refine hends.2.imp_right fun hbody => ?_
      cases body with
      | nil => simp
      | cons d body => exact hbody
    rw [List.cons_append, skipTemplate_char hc hdollar hends.1, ih, byteLength, Nat.add_assoc offset]

theorem skipBlockComment_body (h : ¬ ['*', '/'] <:+: body) :
    skipBlockComment offset (body ++ '*' :: '/' :: rest) = ⟨offset + byteLength body + 2, rest⟩ := by
  induction body generalizing offset with
  | nil => rfl
  | cons c body ih =>
    rw [infix_cons_cons, not_or, not_and_or] at h
    have hchar : c ≠ '*' ∨ (body ++ '*' :: '/' :: rest).head? ≠ some '/' := by
      refine h.1.imp_right fun hbody => ?_
      cases body with
      | nil => simp
      | cons d body => exact hbody
    rw [List.cons_append, skipBlockComment_char hchar, ih h.2, byteLength, Nat.add_assoc offset]

namespace Complete

variable {kind : Kind}

theorem isMark (h : Complete next text kind) : IsMark kind.mark := by
  cases kind with
  | lineComment | blockComment | template => simp [IsMark, Kind.mark]
  | string quote =>
    obtain ⟨rfl | rfl, -⟩ := h <;> simp [IsMark, Kind.mark]

theorem head? (h : Complete next text kind) : text.head? = some kind.mark := by
  cases kind with
  | lineComment => obtain ⟨-, body, rfl, -⟩ := h; rfl
  | blockComment => obtain ⟨body, rfl, -⟩ := h; rfl
  | string quote => obtain ⟨-, body, rfl, -⟩ := h; rfl
  | template => obtain ⟨body, rfl, -⟩ := h; rfl

theorem once (h : Complete next text kind) : Once depths last text next depths fun _ => [] := by
  -- One step of the scan takes a whole piece of any kind; a line comment also has to know what
  -- follows it.
  cases kind with
  | lineComment =>
    obtain ⟨hnext, body, rfl, hbody⟩ := h
    refine ⟨List.cons_ne_nil _ _, fun offset rest sites hrest => ?_⟩
    have hend : rest = [] ∨ rest.head? = some '\n' := by
      rw [← hrest] at hnext
      exact hnext.imp_left List.head?_eq_none_iff.1
    rw [List.cons_append, List.cons_append, step_line, skipWhile_line hbody hend, List.append_nil,
      byteLength, byteLength, show Char.utf8Size '/' = 1 from rfl, ← Nat.add_assoc, ← Nat.add_assoc]
  | blockComment =>
    obtain ⟨body, rfl, hbody⟩ := h
    refine ⟨List.cons_ne_nil _ _, fun offset rest sites _ => ?_⟩
    have htext : '/' :: '*' :: (body ++ ['*', '/']) ++ rest = '/' :: '*' :: (body ++ '*' :: '/' :: rest) := by
      simp
    have hlength : offset + byteLength ('/' :: '*' :: (body ++ ['*', '/'])) =
        offset + 2 + byteLength body + 2 := by
      have hslash : Char.utf8Size '/' = 1 := rfl
      have hstar : Char.utf8Size '*' = 1 := rfl
      simp only [byteLength, byteLength_append]
      omega
    rw [htext, step_block, skipBlockComment_body hbody, List.append_nil, hlength]
  | string quote =>
    obtain ⟨hq, body, rfl, hbody⟩ := h
    refine ⟨List.cons_ne_nil _ _, fun offset rest sites _ => ?_⟩
    have hsize : quote.utf8Size = 1 := by rcases hq with rfl | rfl <;> rfl
    have htext : quote :: (body ++ [quote]) ++ rest = quote :: (body ++ quote :: rest) := by simp
    have hlength : offset + byteLength (quote :: (body ++ [quote])) =
        offset + 1 + byteLength body + quote.utf8Size := by
      simp only [byteLength, byteLength_append]
      omega
    rw [htext, step_quoted hq, hbody.skipQuoted hq, List.append_nil, hlength]
  | template =>
    obtain ⟨body, rfl, hbody⟩ := h
    refine ⟨List.cons_ne_nil _ _, fun offset rest sites _ => ?_⟩
    have htext : '\x60' :: (body ++ ['\x60']) ++ rest = '\x60' :: (body ++ '\x60' :: rest) := by simp
    have hlength : offset + byteLength ('\x60' :: (body ++ ['\x60'])) =
        offset + 1 + byteLength body + 1 := by
      have hmark : Char.utf8Size '\x60' = 1 := rfl
      simp only [byteLength, byteLength_append]
      omega
    have hstep : (Scan.mk ⟨offset, '\x60' :: (body ++ '\x60' :: rest)⟩ depths last sites).step =
        (Scan.mk ⟨offset, '\x60' :: (body ++ '\x60' :: rest)⟩ depths last sites).template
          ⟨offset + 1, body ++ '\x60' :: rest⟩ depths := rfl
    rw [htext, hstep, Scan.template, hbody.skipTemplate, List.append_nil, hlength]

theorem lastOf_ne (h : Complete next text kind) (hkind : kind ≠ .lineComment) :
    lastOf last text ≠ some '.' := by
  cases kind with
  | lineComment => exact absurd rfl hkind
  | blockComment =>
    obtain ⟨body, rfl, -⟩ := h
    simp [lastOf, isBlank]
  | string quote =>
    obtain ⟨rfl | rfl, body, rfl, -⟩ := h <;> simp [lastOf, isBlank]
  | template =>
    obtain ⟨body, rfl, -⟩ := h
    simp [lastOf, isBlank]

end Complete

/-! ### Behind skipped text -/

/-- Two scans at one place that differ in the last significant character, but not in whether it is a
dot. -/
structure Abreast (s s' : Scan) : Prop where
  place : s.place = s'.place
  depths : s.depths = s'.depths
  sites : s.sites = s'.sites
  dot : s.last = some '.' ↔ s'.last = some '.'

namespace Abreast

theorem lastSignificant {stop : Nat} (h : last = some '.' ↔ last' = some '.') (text : List Char) :
    AnonymousFunction.lastSignificant last stop offset text = some '.' ↔
      AnonymousFunction.lastSignificant last' stop offset text = some '.' := by
  induction text generalizing last last' offset with
  | nil => exact h
  | cons c text ih =>
    rw [AnonymousFunction.lastSignificant, AnonymousFunction.lastSignificant]
    by_cases hstop : offset < stop
    · rw [if_pos hstop, if_pos hstop]
      apply ih
      cases isBlank c
      · exact Iff.rfl
      · exact h
    · rw [if_neg hstop, if_neg hstop]
      exact h

theorem moveTo (h : Abreast s s') (p : Place) (depths sites : List Nat) :
    Abreast (s.moveTo p depths sites) (s'.moveTo p depths sites) := by
  refine ⟨rfl, rfl, rfl, ?_⟩
  rw [Scan.moveTo, Scan.moveTo, ← h.place]
  exact lastSignificant h.dot _

theorem template (h : Abreast s s') (p : Place) (depths : List Nat) :
    Abreast (s.template p depths) (s'.template p depths) := by
  rw [Scan.template, Scan.template, h.sites]
  split <;> exact h.moveTo _ _ _

theorem siteAfter (h : Abreast s s') (word : List Char) (p : Place) :
    AnonymousFunction.siteAfter s word p = AnonymousFunction.siteAfter s' word p := by
  have hdot : (s.last != some '.') = (s'.last != some '.') := by
    rw [Bool.eq_iff_iff, bne_iff_ne, bne_iff_ne]
    exact not_congr h.dot
  rw [AnonymousFunction.siteAfter, AnonymousFunction.siteAfter, hdot]

theorem step (h : Abreast s s') : Abreast s.step s'.step := by
  rw [Scan.step, Scan.step, ← h.place, ← h.depths, ← h.sites]
  split
  · exact h
  · exact h.moveTo _ _ _
  · exact h.moveTo _ _ _
  · -- Only a word looks at the character in front of it, and only for a dot.
    simp only [h.siteAfter]
    repeat' split
    all_goals first
      | exact h.moveTo _ _ _
      | exact h.template _ _

theorem run (h : Abreast s s') (k : Nat) : Abreast (Scan.run k s) (Scan.run k s') := by
  induction k generalizing s s' with
  | zero => exact h
  | succ k ih =>
    rw [Scan.run, Scan.run, h.place]
    split
    · exact h
    · exact ih h.step

end Abreast

/-- The sites in a text that is scanned from some depths behind the character `last`. -/
def sitesFrom (depths : List Nat) (last : Option Char) (text : List Char) : List Nat :=
  (Scan.run text.length ⟨⟨0, text⟩, depths, last, []⟩).sites

theorem sitesFrom_congr (h : last = some '.' ↔ last' = some '.') :
    sitesFrom depths last text = sitesFrom depths last' text := by
  have habreast : Abreast ⟨⟨0, text⟩, depths, last, []⟩ ⟨⟨0, text⟩, depths, last', []⟩ :=
    ⟨rfl, rfl, rfl, h⟩
  exact (habreast.run text.length).sites

theorem starts_add {parts : List (List Char)} (n : Nat) :
    starts (n + offset) parts = (starts offset parts).map (n + ·) := by
  induction parts generalizing offset with
  | nil => rfl
  | cons part parts ih => rw [starts, starts, List.map_cons, Nat.add_assoc, ih]

theorem sites_append (h : Over [] none front rest.head? depths found) : sites (front ++ rest) =
    found 0 ++ (sitesFrom depths (lastOf none front) rest).map (byteLength front + ·) := by
  obtain ⟨start, parts, hcut⟩ := Cut.exists_of depths (lastOf none front) rest
  obtain ⟨depths', hrest⟩ := hcut.scanned
  obtain ⟨depths'', hrun⟩ := hcut.run_eq
  rw [← Option.or_none (o := rest.head?)] at h
  rw [sites, (h.append rest hrest).run_eq, sitesFrom, hrun, ← starts_add, Nat.zero_add]

/-! ### In the place of skipped text -/

theorem lastOf_head {mark : Char} (h : text.head? = some mark) (hmark : isBlank mark = false) :
    lastOf last text = lastOf none text := by
  obtain ⟨tail, rfl⟩ := List.head?_eq_some_iff.1 h
  simp [lastOf, hmark]

/-- Skipped text in the place of skipped text of the same kind, where the scan stands in front of it. The
sites in front of it are the same ones, there is none in it, and the sites behind it are the same ones at
their new offsets; of two line comments, both or neither have a dot for their last significant
character. -/
theorem sites_replaced {text text' front behind : List Char} {kind : Kind}
    (hreached : ∃ k, (Scan.run k ⟨⟨0, front ++ (text ++ behind)⟩, [], none, []⟩).place.offset =
      byteLength front)
    (htext : Complete behind.head? text kind) (htext' : Complete behind.head? text' kind)
    (hdot : kind = .lineComment → (lastOf none text = some '.' ↔ lastOf none text' = some '.')) :
    ∃ before after : List Nat, (∀ site ∈ before, site < byteLength front) ∧
      sites (front ++ text ++ behind) = before ++ after.map (byteLength (front ++ text) + ·) ∧
      sites (front ++ text' ++ behind) = before ++ after.map (byteLength (front ++ text') + ·) := by
  obtain ⟨k, hrun⟩ := hreached
  have hmark := htext.isMark
  have hhead : (text ++ behind).head? = some kind.mark := by rw [List.head?_append, htext.head?]; rfl
  obtain ⟨depths, found, hfront, hfound⟩ := exists_over hmark hhead (hrun.trans (Nat.zero_add _).symm)
  have hover {text : List Char} (htext : Complete behind.head? text kind) :
      Over [] none (front ++ text) behind.head? depths found := by
    have hnext : Over [] none front (text.head?.or behind.head?) depths found := by
      rwa [htext.head?]
    have hall := hnext.append text htext.once.over
    simpa only [List.append_nil] using hall
  have hlast {text : List Char} (htext : Complete behind.head? text kind) :
      lastOf none (front ++ text) = lastOf none text := by
    rw [lastOf_append, lastOf_head htext.head? hmark.not_blank]
  have hsame : lastOf none (front ++ text) = some '.' ↔ lastOf none (front ++ text') = some '.' := by
    rw [hlast htext, hlast htext']
    by_cases hkind : kind = .lineComment
    · exact hdot hkind
    · exact iff_of_false (htext.lastOf_ne hkind) (htext'.lastOf_ne hkind)
  refine ⟨found 0, sitesFrom depths (lastOf none (front ++ text)) behind, ?_,
    sites_append (hover htext), ?_⟩
  · simpa only [Nat.zero_add] using hfound 0
  · rw [sitesFrom_congr hsame]
    exact sites_append (hover htext')

/-- The dot that ends the comment is taken for the dot of a member. -/
example : sites "// Done.\nfunction()".toList = [] ∧ sites "// Done\nfunction()".toList = [16] := by
  decide +kernel

end FineGrain.AnonymousFunction
