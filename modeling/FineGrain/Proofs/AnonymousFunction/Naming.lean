import FineGrain.Proofs.AnonymousFunction.Bytes
import FineGrain.Proofs.Names
import FineGrain.Proofs.Text.Splicing
/-!
The named text. A cut text is scanned part by part in the same states when names stand in front of the
parts, if each of them is read as a word: what was a site is then a function with a name. The names are
put in as a splice of insertions puts them in, so nothing of the text is lost.
-/

namespace FineGrain.AnonymousFunction

open Text

variable {last : Option Char} {depths : List Nat} {gap word text front : List Char}
  {parts : List (List Char)} {names : List String} {name : String}

/-! ### The same parts with names between them -/

/-- A name that the scan reads as a word, and not as `function`. -/
structure Harmless (name : String) : Prop where
  ne_nil : name.toList ≠ []
  word : ∀ c ∈ name.toList, isWordChar c = true
  ne_function : name.toList ≠ "function".toList

theorem Harmless.head? (h : Harmless name) : ∃ c, name.toList.head? = some c ∧ isWordChar c = true := by
  obtain ⟨c, rest, hname⟩ := List.exists_cons_of_ne_nil h.ne_nil
  exact ⟨c, by rw [hname]; rfl, h.word c (by rw [hname]; exact List.mem_cons_self)⟩

def woven : List Char → List (List Char) → List String → List Char
  | front, part :: parts, name :: names =>
      front ++ insertion front.getLast? name ++ woven part parts names
  | front, parts, _ => front ++ parts.flatten

theorem woven_append (word : List Char) (hfront : parts ≠ [] → front ≠ []) :
    woven (word ++ front) parts names = word ++ woven front parts names := by
  cases parts with
  | nil => simp [woven]
  | cons part parts =>
    cases names with
    | nil => simp [woven]
    | cons name names =>
      have hsome : front.getLast?.isSome = true := by
        rw [List.getLast?_isSome]
        exact hfront (List.cons_ne_nil _ _)
      have hlast : (word ++ front).getLast? = front.getLast? := by
        rw [List.getLast?_append, Option.or_of_isSome hsome]
      simp [woven, hlast]

theorem head?_woven (hfront : parts ≠ [] → front ≠ []) :
    (woven front parts names).head? = (front ++ parts.flatten).head? := by
  cases front with
  | nil =>
    have hparts : parts = [] := by
      by_contra hne
      exact hfront hne rfl
    subst hparts
    rfl
  | cons c front =>
    cases parts with
    | nil => rfl
    | cons part parts => cases names <;> rfl

/-- What stands between `function` and its name is a gap, and so is the blank put there. -/
theorem insertion_gap (hgap : Gap gap (some '(')) (hname : Harmless name) :
    ∃ gap', gap ++ insertion ("function".toList ++ gap).getLast? name = gap' ++ name.toList ∧
      gap' ≠ [] ∧ Gap gap' name.toList.head? := by
  obtain ⟨c, hhead, hc⟩ := hname.head?
  have hends : ∀ d ∈ name.toList.head?, isBlank d = false := by
    intro d hd
    rw [hhead] at hd
    cases hd
    refine Bool.eq_false_iff.2 fun hblank => ?_
    exact ne_of_isWordChar hc (Plain.of_isBlank hblank).2 rfl
  have hstar : name.toList.head? ≠ some '*' := by
    rw [hhead]
    exact fun h => ne_of_isWordChar (x := '*') hc rfl (Option.some.inj h)
  rcases List.eq_nil_or_concat gap with rfl | ⟨init, d, hconcat⟩
  · exact ⟨[' '], rfl, List.cons_ne_nil _ _, hends, .inl ⟨by simp [isBlank], hstar⟩⟩
  · rw [List.concat_eq_append] at hconcat
    have hlast : ("function".toList ++ gap).getLast? = some d := by
      rw [hconcat, ← List.append_assoc, List.getLast?_concat]
    have hmem : d ∈ gap := by simp [hconcat]
    refine ⟨gap, ?_, by simp [hconcat], hends, hgap.star.imp (fun h => ⟨h.1, hstar⟩) id⟩
    rw [hlast]
    rcases hgap.blanks d hmem with hd | rfl
    · simp [insertion, hd]
    · rfl

theorem Over.named (hlast : last ≠ some '.') (hgap : Gap gap (some '(')) (hname : Harmless name)
    (next : Option Char) :
    Over depths last ("function".toList ++ gap ++ insertion ("function".toList ++ gap).getLast? name ++
      ['(']) next depths fun _ => [] := by
  obtain ⟨gap', hinsertion, hne, hgap'⟩ := insertion_gap hgap hname
  obtain ⟨c, hhead, hc⟩ := hname.head?
  have hparen : name.toList.head? ≠ some '(' := by
    rw [hhead]
    exact fun h => ne_of_isWordChar (x := '(') hc rfl (Option.some.inj h)
  have hfunction : Over depths last ("function".toList ++ gap') name.toList.head? depths
      fun _ => [] := by
    have hover := Over.function depths hlast hgap' fun h => absurd h hne
    simpa only [if_neg hparen] using hover
  have hword : Over depths (lastOf last ("function".toList ++ gap')) name.toList (some '(') depths
      fun _ => [] :=
    (Once.otherWord hname.ne_nil hname.word (by simp [not_word_paren])
      (.inl hname.ne_function)).over
  have hplain : Over depths (lastOf (lastOf last ("function".toList ++ gap')) name.toList) ['('] next
      depths fun _ => [] := (Once.plain plain_paren (.inl (by decide))).over
  have hnext : name.toList.head? = (name.toList ++ ['(']).head?.or next := by
    rw [List.head?_append, hhead]
    rfl
  have hall := (hnext ▸ hfunction).append _ (hword.append ['('] hplain)
  rw [List.append_assoc "function".toList, hinsertion]
  simpa only [List.append_assoc, List.append_nil] using hall

namespace Cut

theorem named (h : Cut depths last text front parts) (hnames : names.length = parts.length)
    (hharmless : ∀ name ∈ names, Harmless name) :
    Cut depths last (woven front parts names) (woven front parts names) [] := by
  induction h generalizing names with
  | done => exact .done
  | @pass depths depths' last word rest front parts hne hover hrest ih =>
    have hfront := hrest.front_ne_nil
    rw [woven_append word hfront]
    -- What is behind the part still starts with the same character.
    refine .pass hne ?_ (ih hnames hharmless)
    rwa [head?_woven hfront, ← hrest.text_eq]
  | @site depths last gap rest front parts hlast hgap hrest ih =>
    cases names with
    | nil => cases hnames
    | cons name names =>
      obtain ⟨hname, hharmless⟩ := List.forall_mem_cons.1 hharmless
      have hpart : woven (['('] ++ front) parts names = ['('] ++ woven front parts names :=
        woven_append ['('] hrest.front_ne_nil
      have hcut := ih (Nat.succ.inj hnames) hharmless
      have hlast' : lastOf last ("function".toList ++ gap ++
          insertion ("function".toList ++ gap).getLast? name ++ ['(']) = some '(' := by
        rw [lastOf_append]
        rfl
      rw [woven, ← List.singleton_append, hpart, ← List.append_assoc]
      exact .pass (List.append_ne_nil_of_right_ne_nil _ (List.cons_ne_nil _ _))
        (.named hlast hgap hname _) (hlast' ▸ hcut)

end Cut

/-! ### The named text as a splice -/

variable {before : Option Char} {offset site : Nat} {pre rest : List Char}
  {pairs : List (Nat × String)}

theorem insertNames_nil : insertNames before offset text [] = text := by
  rw [insertNames]

theorem insertNames_append (h : ∀ p ∈ pairs.head?, offset + byteLength front ≤ p.1) :
    insertNames before offset (front ++ rest) pairs =
      front ++ insertNames (front.getLast?.or before) (offset + byteLength front) rest pairs := by
  cases pairs with
  | nil => rw [insertNames_nil, insertNames_nil]
  | cons p more =>
    obtain ⟨site, name⟩ := p
    induction front generalizing before offset with
    | nil => rfl
    | cons c front ih =>
      have hc := c.utf8Size_pos
      have hsite := h _ rfl
      rw [byteLength] at hsite
      have hne : (offset == site) = false := by
        rw [beq_eq_false_iff_ne]
        dsimp only at hsite
        omega
      have hlast : (c :: front).getLast?.or before = front.getLast?.or (some c) := by
        rw [List.getLast?_cons]
        cases front.getLast? <;> rfl
      rw [List.cons_append, insertNames, hne, if_neg Bool.false_ne_true, hlast, byteLength,
        ← Nat.add_assoc, ih, List.cons_append]
      intro p hp
      cases hp
      rwa [Nat.add_assoc]

theorem insertNames_site {c : Char} (h : ∀ p ∈ pairs.head?, offset < p.1) :
    insertNames before offset (c :: rest) ((offset, name) :: pairs) =
      insertion before name ++ insertNames before offset (c :: rest) pairs := by
  rw [insertNames, beq_self_eq_true, if_pos rfl]
  cases pairs with
  | nil => rw [insertNames_nil, insertNames_nil]
  | cons p more =>
    obtain ⟨site, name'⟩ := p
    have hne : (offset == site) = false := beq_eq_false_iff_ne.2 (Nat.ne_of_lt (h _ rfl))
    rw [insertNames, hne, if_neg Bool.false_ne_true]

theorem insertNames_starts (hfront : parts ≠ [] → front ≠ [])
    (hparts : ∀ part ∈ parts, part ≠ []) :
    insertNames before offset (front ++ parts.flatten)
      ((starts (offset + byteLength front) parts).zip names) = woven front parts names := by
  induction parts generalizing before offset front names with
  | nil => simp [starts, woven, insertNames_nil]
  | cons part parts ih =>
    cases names with
    | nil => simp [woven, insertNames_nil]
    | cons name names =>
      obtain ⟨hpart, hparts⟩ := List.forall_mem_cons.1 hparts
      have hlater : ∀ p ∈ ((starts (offset + byteLength front + byteLength part) parts).zip names).head?,
          offset + byteLength front < p.1 := by
        intro p hp
        have hle := le_of_mem_starts (List.of_mem_zip (List.mem_of_head? hp)).1
        have hpos : byteLength part ≠ 0 := fun hzero => hpart (byteLength_eq_zero hzero)
        omega
      have hsome : front.getLast?.isSome = true := by
        rw [List.getLast?_isSome]
        exact hfront (List.cons_ne_nil _ _)
      have hrest : insertNames front.getLast? (offset + byteLength front) (part ++ parts.flatten)
          ((starts (offset + byteLength front + byteLength part) parts).zip names) =
            woven part parts names := ih (fun _ => hpart) hparts
      obtain ⟨c, tail, rfl⟩ := List.exists_cons_of_ne_nil hpart
      rw [starts, List.zip_cons_cons, insertNames_append (by simp), Option.or_of_isSome hsome,
        List.flatten_cons, List.cons_append, insertNames_site hlater, ← List.cons_append, hrest, woven,
        List.append_assoc]

/-- Whether neither white space nor a star stands in front of an offset. -/
def glued (text : List Char) (offset : Nat) : Bool :=
  ((takeBytes offset text).bind List.getLast?).any fun c => !isBlank c && c != '*'

/-- The names put in at the sites, each behind a blank of its own where it would touch a word. -/
def nameEdits (text : List Char) (sites : List Nat) (names : List String) : List Edit :=
  (sites.zip names).map fun (site, name) =>
    ⟨Span.point site, (if glued text site then [' '] else []) ++ name.toList⟩

theorem insertion_eq (name : String) (pre rest : List Char) (hfront : front ≠ []) :
    insertion front.getLast? name = (if glued (pre ++ front ++ rest) (byteLength (pre ++ front)) then [' '] else []) ++
      name.toList := by
  rcases List.eq_nil_or_concat front with rfl | ⟨init, c, rfl⟩
  · exact absurd rfl hfront
  · rw [glued, takeBytes_append, List.concat_eq_append, ← List.append_assoc, Option.bind_some,
      List.getLast?_concat, List.getLast?_concat, Option.any_some, insertion]
    cases isBlank c <;> cases hstar : c == '*' <;> simp [bne, hstar]

theorem nameEdits_starts (htext : text = pre ++ front ++ parts.flatten)
    (hfront : parts ≠ [] → front ≠ []) (hparts : ∀ part ∈ parts, part ≠ [])
    (hnames : names.length = parts.length) :
    InOrder text (byteLength text) (byteLength pre)
        (nameEdits text (starts (byteLength (pre ++ front)) parts) names) ∧
      weave text (byteLength text) (byteLength pre)
        (nameEdits text (starts (byteLength (pre ++ front)) parts) names) = woven front parts names := by
  -- `pre` is what has been woven, `front` what stands between it and the next site.
  induction parts generalizing pre front names with
  | nil =>
    obtain rfl := List.eq_nil_of_length_eq_zero hnames
    rw [List.flatten_nil, List.append_nil] at htext
    have hslice := slice_append_append pre front []
    rw [List.append_nil, ← byteLength_append, ← htext] at hslice
    refine ⟨?_, by simpa [nameEdits, starts, weave, woven] using hslice⟩
    rw [htext, byteLength_append]
    exact Nat.le_add_right _ _
  | cons part parts ih =>
    cases names with
    | nil => cases hnames
    | cons name names =>
      obtain ⟨hpart, hparts⟩ := List.forall_mem_cons.1 hparts
      have hkept := slice_append_append pre front (part ++ parts.flatten)
      have hsite := isBoundary_append (pre ++ front) (part ++ parts.flatten)
      have hname := insertion_eq name pre (part ++ parts.flatten) (hfront (List.cons_ne_nil _ _))
      rw [List.flatten_cons] at htext
      rw [← htext] at hkept hsite hname
      rw [← byteLength_append] at hkept
      have hbehind : text = (pre ++ front) ++ part ++ parts.flatten := by
        rw [htext, List.append_assoc (pre ++ front)]
      obtain ⟨horder, hweave⟩ := ih hbehind (fun _ => hpart) hparts (Nat.succ.inj hnames)
      have hcons : nameEdits text (starts (byteLength (pre ++ front)) (part :: parts)) (name :: names) =
          ⟨Span.point (byteLength (pre ++ front)), insertion front.getLast? name⟩ ::
            nameEdits text (starts (byteLength (pre ++ front ++ part)) parts) names := by
        rw [hname, byteLength_append (pre ++ front) part]
        rfl
      have hle : byteLength pre ≤ byteLength (pre ++ front) := by
        rw [byteLength_append]
        exact Nat.le_add_right _ _
      rw [hcons]
      refine ⟨⟨hle, covers_iff.2 ⟨Nat.le_refl _, hsite, hsite⟩, horder⟩, ?_⟩
      rw [weave, woven]
      exact congrArg₂ (· ++ ·) (congrArg (· ++ _) hkept) hweave

/-! ### The names -/

theorem isWordChar_of_isDigit {c : Char} (h : c.isDigit = true) : isWordChar c = true := by
  simp [isWordChar, Char.isAlphanum, h]

theorem isWordChar_candidate {base : String} {n : Nat} (h : ∀ c ∈ base.toList, isWordChar c = true) :
    ∀ c ∈ (Names.candidate base n).toList, isWordChar c = true := by
  intro c hc
  rw [Names.toList_candidate] at hc
  rcases List.mem_append.1 hc with hc | hc
  · exact h c hc
  · rw [List.eq_of_mem_replicate hc]
    rfl

theorem isWordChar_indexed {base : String} {n : Nat} (h : ∀ c ∈ base.toList, isWordChar c = true) :
    ∀ c ∈ (base ++ toString n).toList, isWordChar c = true := by
  intro c hc
  rw [String.toList_append] at hc
  rcases List.mem_append.1 hc with hc | hc
  · exact h c hc
  · have hdigits : (toString n).toList = Nat.toDigits 10 n := by simp [toString, Nat.repr]
    rw [hdigits] at hc
    exact isWordChar_of_isDigit (Nat.isDigit_of_mem_toDigits (by decide) (by decide) hc)

variable {base : String}

theorem handed_laterNames (text : List Char) (first : String) (n index : Nat) (names : Names)
    (hscope : names.scopes ≠ []) :
    let later := laterNames text first n index names
    Names.Handed text names later.1 later.2 := by
  induction n generalizing index names with
  | zero => exact .nil hscope
  | succ n ih => exact .cons hscope (ih (index + 1) _ (Names.scopes_record hscope))

theorem handed_namesFor (text : List Char) (base : String) (names : Names) (n : Nat)
    (hscope : names.scopes ≠ []) :
    let all := namesFor text base names n
    Names.Handed text names all.1 all.2 := by
  cases n with
  | zero => exact .nil hscope
  | succ n => exact .cons hscope (handed_laterNames text _ n 1 _ (Names.scopes_record hscope))

theorem length_laterNames (text : List Char) (first : String) (n index : Nat) (names : Names) :
    (laterNames text first n index names).1.length = n := by
  induction n generalizing index names with
  | zero => rfl
  | succ n ih => exact congrArg (· + 1) (ih (index + 1) _)

theorem length_namesFor (text : List Char) (base : String) (names : Names) (n : Nat) :
    (namesFor text base names n).1.length = n := by
  cases n with
  | zero => rfl
  | succ n => exact congrArg (· + 1) (length_laterNames text _ n 1 _)

def IsWord (name : String) : Prop := name.toList ≠ [] ∧ ∀ c ∈ name.toList, isWordChar c = true

theorem IsWord.fresh (text : List Char) (names : Names) (h : IsWord base) :
    IsWord (names.fresh base text) := by
  obtain ⟨⟨n, hn⟩, -⟩ := names.fresh_spec base text
  rw [hn]
  refine ⟨?_, isWordChar_candidate h.2⟩
  rw [Names.toList_candidate]
  exact List.append_ne_nil_of_left_ne_nil h.1 _

theorem IsWord.indexed (h : IsWord base) (n : Nat) : IsWord (base ++ toString n) := by
  refine ⟨?_, isWordChar_indexed h.2⟩
  rw [String.toList_append]
  exact List.append_ne_nil_of_left_ne_nil h.1 _

theorem isWord_laterNames (text : List Char) (n index : Nat) (names : Names) (h : IsWord base) :
    ∀ name ∈ (laterNames text base n index names).1, IsWord name := by
  induction n generalizing index names with
  | zero => exact List.forall_mem_nil _
  | succ n ih => exact List.forall_mem_cons.2 ⟨(h.indexed index).fresh text names, ih (index + 1) _⟩

theorem isWord_namesFor (text : List Char) (names : Names) (n : Nat) (h : IsWord base) :
    ∀ name ∈ (namesFor text base names n).1, IsWord name := by
  have hfirst : IsWord (names.fresh base text) := h.fresh text names
  cases n with
  | zero => exact List.forall_mem_nil _
  | succ n => exact List.forall_mem_cons.2 ⟨hfirst, isWord_laterNames text n 1 _ hfirst⟩

/-! ### The pass -/

theorem sites_paren (text : List Char) : (sites text).Pairwise (· < ·) ∧
    ∀ site ∈ sites text, slice? text ⟨site, site + 1⟩ = some ['('] := by
  obtain ⟨front, parts, hcut⟩ := Cut.exists_of [] none text
  rw [hcut.sites_eq]
  refine ⟨starts_pairwise hcut.part_ne_nil, ?_⟩
  intro site hsite
  obtain ⟨before, part, behind, rfl, rfl⟩ := exists_of_mem_starts hsite
  obtain ⟨tail, rfl⟩ := List.head?_eq_some_iff.1 (hcut.parts_start part (by simp))
  refine slice?_eq_some_iff.2 ⟨front ++ before.flatten, tail ++ behind.flatten, ?_, rfl, rfl⟩
  rw [hcut.text_eq]
  simp

namespace Cut

variable {given : List String}

theorem insertNames_eq (h : Cut [] none text front parts) :
    insertNames none 0 text ((sites text).zip given) = woven front parts given := by
  have hinsert : insertNames none 0 (front ++ parts.flatten)
      ((starts (0 + byteLength front) parts).zip given) = woven front parts given :=
    insertNames_starts h.front_ne_nil h.part_ne_nil
  rwa [Nat.zero_add, ← h.sites_eq, ← h.text_eq] at hinsert

theorem length_eq (h : Cut [] none text front parts) : (sites text).length = parts.length := by
  rw [h.sites_eq, length_starts]

end Cut

theorem insertNames_spliced {given : List String} (hlength : given.length = (sites text).length) :
    let named := insertNames none 0 text ((sites text).zip given)
    let edits := nameEdits text (sites text) given
    (EditList.ofEdits edits).spliceIn? text ⟨0, byteLength text⟩ = some named ∧
      (EditList.ofEdits (removals 0 edits)).spliceIn? named ⟨0, byteLength named⟩ = some text := by
  intro named edits
  obtain ⟨front, parts, hcut⟩ := Cut.exists_of [] none text
  obtain ⟨horder, hweave⟩ : InOrder text (byteLength text) 0 edits ∧
      weave text (byteLength text) 0 edits = named := by
    have htext : text = [] ++ front ++ parts.flatten := hcut.text_eq
    have hedits := nameEdits_starts htext hcut.front_ne_nil hcut.part_ne_nil
      (hlength.trans hcut.length_eq)
    rwa [List.nil_append, ← hcut.sites_eq, ← hcut.insertNames_eq] at hedits
  have hpoint : ∀ e ∈ edits, e.span.stop = e.span.start := by
    intro e he
    obtain ⟨p, -, rfl⟩ := List.mem_map.1 he
    rfl
  have hempty : byteLength [] = 0 + 0 := rfl
  obtain ⟨horder', hweave'⟩ :=
    weave_removals horder hpoint isBoundary_zero isBoundary_byteLength hempty
  rw [List.nil_append, hweave] at horder' hweave'
  constructor
  · rw [EditList.spliceIn?_ofEdits horder isBoundary_zero isBoundary_byteLength, hweave]
  · rw [EditList.spliceIn?_ofEdits horder' isBoundary_zero isBoundary_byteLength, hweave', slice_all]

theorem sites_insertNames {given : List String} (hlength : given.length = (sites text).length)
    (hharmless : ∀ name ∈ given, Harmless name) :
    sites (insertNames none 0 text ((sites text).zip given)) = [] := by
  obtain ⟨front, parts, hcut⟩ := Cut.exists_of [] none text
  have hnamed := hcut.named (hlength.trans hcut.length_eq) hharmless
  rw [hcut.insertNames_eq, hnamed.sites_eq]
  rfl

theorem nameAll_of_sites_nil {names : Names} (h : sites text = []) :
    nameAll text base names = (⟨text, []⟩, names) := by
  simp [nameAll, h, namesFor, insertNames_nil]

/-- The pass that names anonymous functions. It finds parentheses, from the front to the back; it puts
one name before each, behind a blank where it would touch a word, and these can be taken out again; the
names are new; it cuts and scans no character in two, also when it goes by bytes; and to name the
result once more changes nothing. -/
theorem named_for_good (text : List Char) (base : String) (names : Names) (hscope : names.scopes ≠ [])
    (hbase : base ≠ "") (hword : ∀ c ∈ base.toList, isWordChar c = true) :
    let found := sites text
    let named := (nameAll text base names).1
    let edits := nameEdits text found named.names
    (found.Pairwise (· < ·) ∧ ∀ site ∈ found, slice? text ⟨site, site + 1⟩ = some ['(']) ∧
      (named.names.length = found.length ∧
        (EditList.ofEdits edits).spliceIn? text ⟨0, byteLength text⟩ = some named.text ∧
        (EditList.ofEdits (removals 0 edits)).spliceIn? named.text ⟨0, byteLength named.text⟩ =
          some text) ∧
      (named.names.Nodup ∧ ∀ name ∈ named.names, ¬ name.toList <:+: text ∧ name ∉ names.taken) ∧
      (sites (bytes text) = found.map (byteOffset text) ∧
        ∀ n, let place := (Scan.run n ⟨⟨0, text⟩, [], none, []⟩).place
          dropBytes place.offset text = some place.rest ∧
            (Scan.run n ⟨⟨0, bytes text⟩, [], none, []⟩).place.rest = bytes place.rest) ∧
      sites named.text = [] ∧
        ∀ base names, nameAll named.text base names = (⟨named.text, []⟩, names) := by
  intro found named edits
  have hbase : IsWord base := ⟨by rwa [ne_eq, String.toList_eq_nil_iff], hword⟩
  have hlength : named.names.length = found.length := length_namesFor text base names found.length
  have hgiven := handed_namesFor text base names found.length hscope
  -- The text has the word `function` in it if there is anything to name, and so no name is that word.
  have hharmless : ∀ name ∈ named.names, Harmless name := by
    intro name hname
    obtain ⟨hne, hchars⟩ := isWord_namesFor text names found.length hbase name hname
    refine ⟨hne, hchars, fun heq => (hgiven.apart name hname).1 (heq ▸ ?_)⟩
    obtain ⟨front, parts, hcut⟩ := Cut.exists_of [] none text
    apply hcut.function_infix
    rw [← List.length_pos_iff, ← hcut.length_eq]
    exact hlength ▸ List.length_pos_of_mem hname
  have hsites : sites named.text = [] := sites_insertNames hlength hharmless
  refine ⟨sites_paren text, ⟨hlength, insertNames_spliced hlength⟩, ⟨hgiven.nodup, hgiven.apart⟩,
    ⟨sites_bytes text, run_bytes text⟩, hsites, ?_⟩
  intro base names
  exact nameAll_of_sites_nil hsites

/-- A function behind an escaped wide character, and one in a template substitution with a star and a
blank; the base stands in the text, and what would be the next name is reserved. -/
theorem named_for_good_wide :
    let text := "'\\é', function(), \x60$\x7bfunction* (g)\x7d\x60".toList
    let names := Names.ofReserved ["g_"]
    let named := (nameAll text "g" names).1
    names.scopes ≠ [] ∧ "g" ≠ "" ∧ (∀ c ∈ "g".toList, isWordChar c = true) ∧
      sites text = [15, 32] ∧ sites (bytes text) = [17, 34] ∧
      named = ⟨"'\\é', function g__(), \x60$\x7bfunction* g__1(g)\x7d\x60".toList, ["g__", "g__1"]⟩ ∧
      nameAll named.text "g" names = (⟨named.text, []⟩, names) := by
  intro text names named
  have hscope : names.scopes ≠ [] := List.cons_ne_nil _ _
  have hword : ∀ c ∈ "g".toList, isWordChar c = true := List.all_eq_true.1 (by decide)
  obtain ⟨-, -, -, ⟨hbytes, -⟩, -, hagain⟩ := named_for_good text "g" names hscope (by decide) hword
  have hsites : sites text = [15, 32] := by decide
  refine ⟨hscope, by decide, hword, hsites, ?_, by decide +kernel, hagain "g" names⟩
  rw [hbytes, hsites]
  decide

end FineGrain.AnonymousFunction
