import FineGrain.Proofs.Grammar.Literal
import FineGrain.Proofs.Rewrite.Rendering
import FineGrain.Transform
import Mathlib.Data.List.Forall2
/-!
What markup makes of strings. The strings among the properties and the children of a call are written
into markup in one of two forms: bare, where markup reads them as they stand, or as literals in braces.
Read by the rules of markup, both have the value of the literal; texts that come to stand next to one
another are read as one, with the values of the literals in a row.
-/

namespace FineGrain

open Grammar Rewrite

/-! ### The rules of markup -/

namespace Markup

/-- What the references of markup stand for, by what is between the ampersand and the semicolon. -/
abbrev References := List Char → Option (List Char)

/-- A text with what its references stand for in their place. An ampersand that begins none stands for
itself. -/
def decode (references : References) : List Char → List Char
  | [] => []
  | c :: rest =>
      let name := rest.takeWhile (· != ';')
      match references name with
      | some text =>
          if c == '&' && name.length < rest.length then
            text ++ decode references (rest.drop (name.length + 1))
          else c :: decode references rest
      | none => c :: decode references rest
termination_by text => text.length
decreasing_by all_goals simp only [List.length_cons, List.length_drop]; omega

/-- The value of a string literal in braces, from behind the opening one. -/
def container? (text : List Char) : Option (List Char × List Char) :=
  match stringAt? text with
  | some (value, '}' :: rest) => some (value, rest)
  | _ => none

/-- The value of an attribute, from behind the equals sign: a literal in braces, or what stands up to the
next quote of the same kind. -/
def attributeValue? (references : References) : List Char → Option (List Char × List Char)
  | [] => none
  | c :: rest =>
      if c == '{' then container? rest
      else if c == '"' || c == '\'' then
        let inside := rest.takeWhile (· != c)
        if inside.length < rest.length then
          some (decode references inside, rest.drop (inside.length + 1))
        else none
      else none

/-- The value of the first of some children, if it is text or a literal in braces. Text goes up to a tag
or a brace; of text with a line end, and of text with a mark that cannot stand in it, nothing is said. -/
def child? (references : References) : List Char → Option (List Char × List Char)
  | [] => none
  | c :: rest =>
      if c == '{' then container? rest
      else
        let text := (c :: rest).takeWhile fun c => c != '<' && c != '{'
        if text.isEmpty || text.any (['>', '}', '\n', '\r'].contains ·) then none
        else some (decode references text, (c :: rest).drop text.length)

/-- The values of children up to what is left. -/
inductive Children (references : References) : List Char → List (List Char) → List Char → Prop
  | nil {rest : List Char} : Children references rest [] rest
  | cons {text more rest value : List Char} {values : List (List Char)}
      (h : child? references text = some (value, more)) (hmore : Children references more values rest) :
      Children references text (value :: values) rest

variable {references : References} {text rest value : List Char}

/-- A character that markup reads as it stands, between tags and between quotes. -/
def Plain (c : Char) : Prop := c ∉ ['{', '}', '<', '>', '&', '\n', '\r']

theorem decode_eq_self (h : '&' ∉ text) : decode references text = text := by
  induction text with
  | nil => rw [decode]
  | cons c text ih =>
    rw [List.mem_cons, not_or] at h
    have hc : (c == '&') = false := beq_false_of_ne (Ne.symm h.1)
    rw [decode, hc, ih h.2]
    split <;> rfl

theorem container?_literal {raw : List Char} (h : ∀ rest, stringAt? (raw ++ rest) = some (value, rest)) :
    container? (raw ++ '}' :: rest) = some (value, rest) := by
  rw [container?, h]
  rfl

theorem takeWhile_append {q : Char → Bool} (htext : ∀ c ∈ text, q c = true)
    (hrest : ∀ c ∈ rest.head?, q c = false) : (text ++ rest).takeWhile q = text := by
  rw [List.takeWhile_append_of_pos htext]
  cases rest with
  | nil => simp
  | cons c rest => simp [hrest c rfl]

theorem child?_text (hne : text ≠ []) (htext : ∀ c ∈ text, Plain c)
    (hrest : rest.head? = some '<' ∨ rest.head? = some '{') :
    child? references (text ++ rest) = some (text, rest) := by
  have hstop : ∀ c ∈ rest.head?, (c != '<' && c != '{') = false := by
    rcases hrest with hrest | hrest <;> simp [hrest]
  have htake : (text ++ rest).takeWhile (fun c => c != '<' && c != '{') = text := by
    refine takeWhile_append (fun c hc => ?_) hstop
    have hplain := htext c hc
    simp [Plain] at hplain
    simp [hplain]
  have hmarks : text.any (['>', '}', '\n', '\r'].contains ·) = false := by
    refine List.any_eq_false.2 fun c hc => ?_
    have hplain := htext c hc
    simp [Plain] at hplain
    simp [hplain]
  have hreference : '&' ∉ text := fun hmem => absurd (htext _ hmem) (by simp [Plain])
  obtain ⟨c, tail, rfl⟩ := List.exists_cons_of_ne_nil hne
  have hc : (c == '{') = false := beq_false_of_ne fun heq => by
    have hplain := htext c List.mem_cons_self
    simp [Plain, heq] at hplain
  rw [List.cons_append] at htake ⊢
  rw [child?, hc, htake]
  dsimp only
  rw [hmarks, decode_eq_self hreference, ← List.cons_append, List.drop_left]
  rfl

theorem attributeValue?_quoted {quote : Char} (hquote : Scan.IsQuote quote) (hend : quote ∉ text)
    (hreference : '&' ∉ text) :
    attributeValue? references (quote :: (text ++ quote :: rest)) = some (text, rest) := by
  have htake : (text ++ quote :: rest).takeWhile (· != quote) = text := by
    refine takeWhile_append (fun c hc => bne_iff_ne.2 ?_) (by simp)
    rintro rfl
    exact hend hc
  have hbrace : (quote == '{') = false := beq_false_of_ne (hquote.ne (by decide))
  have hmark : (quote == '"' || quote == '\'') = true := by simpa [Scan.IsQuote] using hquote
  have hlength : text.length < (text ++ quote :: rest).length := by simp
  rw [attributeValue?, hbrace, hmark, htake, if_neg Bool.false_ne_true, if_pos rfl]
  simp [decode_eq_self hreference]

end Markup

open Markup

/-! ### Texts of strings -/

variable {references : References} {s : Setting} {n : Node} {rest raw value : List Char}
  {values : List (List Char)}

/-- A node of a tree that is a string literal of the text, and its value. -/
inductive StringNode (s : Setting) : Node → List Char → Prop
  | mk {value : String} {span : Span} (h : literal? (s.slice span) = some value.toList) :
      StringNode s (.mk (.string value) span []) value.toList

theorem attributeValue?_literal (h : literal? raw = some value) :
    attributeValue? references
      ((if Attribute.isPlainQuoted raw then raw else braced raw) ++ rest) = some (value, rest) := by
  obtain ⟨quote, body, hliteral⟩ := literal_of_literal? h
  split
  next hplain =>
    have hplain := List.all_eq_true.1 hplain
    have hmem : '\\' ∉ raw ∧ '&' ∉ raw := by
      constructor <;> intro hmem <;> simpa using hplain _ hmem
    obtain ⟨rfl, hend⟩ := hliteral.plain hmem.1
    have hreference : '&' ∉ value := by
      intro hin
      refine hmem.2 ?_
      rw [hliteral.split]
      exact List.mem_cons_of_mem _ (List.mem_append_left _ hin)
    rw [hliteral.split, List.cons_append, List.append_assoc]
    exact attributeValue?_quoted hliteral.isQuote hend hreference
  next =>
    have htext : braced raw ++ rest = '{' :: (raw ++ '}' :: rest) := by simp [braced]
    rw [htext]
    exact container?_literal hliteral.read

theorem childTexts_cons (s : Setting) (n : Node) (ns : List Node) :
    (childTexts s (n :: ns)).value = (childTexts s [n]).value ++ (childTexts s ns).value := by
  obtain ⟨label, span, parts⟩ := n
  cases label with
  | call =>
    simp only [childTexts]
    cases element? s span parts <;> simp
  | _ => simp [childTexts]

theorem childTexts_append (s : Setting) (ns ns' : List Node) :
    (childTexts s (ns ++ ns')).value = (childTexts s ns).value ++ (childTexts s ns').value := by
  induction ns with
  | nil => simp [childTexts]
  | cons n ns ih => rw [List.cons_append, childTexts_cons, ih, ← List.append_assoc, ← childTexts_cons]

theorem StringNode.written (h : StringNode s n value) :
    (childTexts s [n]).value = value ∧ value ≠ [] ∧ (∀ c ∈ value, Plain c) ∨
      ∃ raw, (childTexts s [n]).value = braced raw ∧
        ∀ rest, stringAt? (raw ++ rest) = some (value, rest) := by
  obtain ⟨h⟩ := h
  rename_i value span
  obtain ⟨quote, body, hliteral⟩ := literal_of_literal? h
  have hwritten : (childTexts s [.mk (.string value) span []]).value =
      if Attribute.isPlainText value (s.slice span) then value.toList else braced (s.slice span) := by
    simp [childTexts]
  rw [hwritten]
  split
  next hplain =>
    simp only [Attribute.isPlainText, Bool.and_eq_true] at hplain
    obtain ⟨⟨hvisible, -⟩, hall⟩ := hplain
    refine .inl ⟨rfl, ?_, fun c hc => ?_⟩
    · rintro hnil
      rw [hnil] at hvisible
      cases hvisible
    · have hmarks := List.all_eq_true.1 hall c hc
      simpa [Plain] using hmarks
  next => exact .inr ⟨s.slice span, rfl, hliteral.read⟩

theorem child?_braced (h : ∀ rest, stringAt? (raw ++ rest) = some (value, rest)) :
    child? references (braced raw ++ rest) = some (value, rest) := by
  have htext : braced raw ++ rest = '{' :: (raw ++ '}' :: rest) := by simp [braced]
  rw [htext]
  exact container?_literal h

theorem Children.behind {pending text : List Char} {pieces : List (List Char)}
    (hpending : ∀ c ∈ pending, Plain c) (htext : text.head? = some '<' ∨ text.head? = some '{')
    (h : Children references text pieces rest) :
    ∃ pieces', Children references (pending ++ text) pieces' rest ∧
      pieces'.flatten = pending ++ pieces.flatten ∧
      pieces'.length = pieces.length + if pending = [] then 0 else 1 := by
  by_cases hnil : pending = []
  · subst hnil
    exact ⟨pieces, h, rfl, rfl⟩
  · exact ⟨pending :: pieces, .cons (child?_text hnil hpending htext) h, rfl, by simp [hnil]⟩

theorem strings_read {run : List Node} (h : List.Forall₂ (StringNode s) run values)
    {pending : List Char} (hpending : ∀ c ∈ pending, Plain c)
    (hrest : rest.head? = some '<' ∨ rest.head? = some '{') :
    ∃ pieces, Children references (pending ++ ((childTexts s run).value ++ rest)) pieces rest ∧
      pieces.flatten = pending ++ values.flatten ∧ (pieces = [] → pending = [] ∧ run = []) ∧
      pieces.length ≤ run.length + if pending = [] then 0 else 1 := by
  induction h generalizing pending with
  | nil =>
    have hnone : Children references rest [] rest := .nil
    obtain ⟨pieces, hread, hvalue, hlength⟩ := Children.behind hpending hrest hnone
    refine ⟨pieces, by simpa [childTexts] using hread, by simpa using hvalue, ?_, ?_⟩
    · rintro rfl
      simpa using hvalue.symm
    · simpa using Nat.le_of_eq hlength
  | @cons n value run values hn hrun ih =>
    rw [childTexts_cons, List.append_assoc]
    rcases hn.written with ⟨hbare, hne, hplain⟩ | ⟨raw, hbraced, hraw⟩
    · -- A bare text goes on with the text in front of it.
      have hboth : ∀ c ∈ pending ++ value, Plain c := by
        intro c hc
        exact (List.mem_append.1 hc).elim (hpending c) (hplain c)
      have hpast : pending ++ value ≠ [] := List.append_ne_nil_of_right_ne_nil pending hne
      obtain ⟨pieces, hread, hvalue, hempty, hlength⟩ := ih hboth
      rw [if_neg hpast] at hlength
      refine ⟨pieces, ?_, by simpa using hvalue, fun h => absurd (hempty h).1 hpast, ?_⟩
      · rwa [hbare, ← List.append_assoc]
      · rw [List.length_cons]
        omega
    · obtain ⟨pieces, hread, hvalue, -, hlength⟩ := @ih [] (by simp)
      have hstart : (braced raw ++ ((childTexts s run).value ++ rest)).head? = some '{' := rfl
      obtain ⟨pieces', hread', hvalue', hlength'⟩ :=
        Children.behind hpending (.inr hstart) (.cons (child?_braced hraw) hread)
      rw [List.length_cons] at hlength'
      refine ⟨pieces', by rwa [hbraced], by simpa [hvalue] using hvalue', ?_, ?_⟩
      · rintro rfl
        rw [List.length_nil] at hlength'
        omega
      · rw [hlength', List.length_cons]
        simp only [if_true] at hlength
        omega

/-! ### Properties -/

theorem attributes_cons (s : Setting) (p : Node) (ps : List Node) :
    (attributes s (p :: ps)).value = (attributes s [p]).value ++ (attributes s ps).value := by
  obtain ⟨label, span, parts⟩ := p
  cases label with
  | property form computed =>
    simp only [attributes]
    cases Attribute.name? form computed parts <;> cases quotedValue? s parts <;> simp
  | _ => simp [attributes]

theorem attributes_append (s : Setting) (ps ps' : List Node) :
    (attributes s (ps ++ ps')).value = (attributes s ps).value ++ (attributes s ps').value := by
  induction ps with
  | nil => simp [attributes]
  | cons p ps ih => rw [List.cons_append, attributes_cons, ih, ← List.append_assoc, ← attributes_cons]

theorem props_of_inner {whole : Unit → Draft (List Char)} {span : Span} {properties : List Node}
    (h : n.inner = .mk .object span properties) : props s whole n = attributes s properties := by
  fun_induction Node.inner n with
  | case1 span e ih =>
    rw [← ih h]
    simp [props]
  | case2 n hn =>
    subst h
    simp [props]

/-- A property of an object literal that has a string literal for its value: the name of the attribute
that it becomes, if it becomes one, and the value. It ends with its value, and stands where it says. -/
inductive StringProperty (s : Setting) : Node → Option String → List Char → Prop
  | mk {computed : Bool} {span : Span} {key node : Node} {value : List Char} {a b : Nat}
      (hvalue : StringNode s node value) (hend : node.span.stop = span.stop)
      (hplaced : placed? s.text a (.mk (.property .value computed) span [key, node]) = some b) :
      StringProperty s (.mk (.property .value computed) span [key, node])
        (Attribute.name? .value computed [key, node]) value

/-- An attribute that has the value for a string literal: an attribute of its own, or at the end of the
one property of an object that is spread. -/
inductive Assigned (references : References) : Option String → List Char → List Char → Prop
  | named {name : String} {written value : List Char}
      (h : ∀ rest, attributeValue? references (written ++ rest) = some (value, rest)) :
      Assigned references (some name) value (assignedAttribute name written)
  | spread {front raw value : List Char}
      (h : ∀ rest, stringAt? (raw ++ rest) = some (value, rest)) :
      Assigned references none value (spreadAttribute (braced (front ++ raw)))

theorem spliced_property {form : PropertyForm} {computed : Bool} {span : Span} {key node : Node}
    {a b : Nat} (hvalue : StringNode s node value) (hend : node.span.stop = span.stop)
    (hplaced : placed? s.text a (.mk (.property form computed) span [key, node]) = some b) :
    ∃ front, s.spliced span (edits s key).value = front ++ s.slice node.span := by
  obtain ⟨hsolid, -, -, c, d, hfront, hd, hparts⟩ := placed_parts hplaced rfl
  obtain rfl := front?_eq hfront (by rintro ⟨⟩)
  obtain ⟨-, hbegin, hstop⟩ := Text.covers_iff.1 (solid_iff.1 hsolid).2
  rcases hparts with ⟨_, hcallback, -⟩ | ⟨-, hparts⟩
  · cases hcallback
  obtain ⟨e, hkey, hrest⟩ := placedAll_cons hparts
  obtain ⟨e', hnode, -⟩ := placedAll_cons hrest
  obtain ⟨hliteral⟩ := hvalue
  rename_i value own
  obtain ⟨hown, hle, -⟩ := placed_solid hnode rfl (by rintro ⟨⟩)
  obtain ⟨hspan, hfirst, -⟩ := Text.covers_iff.1 (solid_iff.1 hown).2
  simp only [Node.span] at hend hle hspan hfirst
  have horder : InOrder s.text own.start span.start (edits s key).value :=
    (rendered s key hkey).laid.inOrder.mono (Nat.le_refl _) hle
  have hinside : own.start ≤ span.stop := hend ▸ hspan
  refine ⟨weave s.text own.start span.start (edits s key).value, ?_⟩
  calc s.spliced span (edits s key).value
      = weave s.text span.stop span.start (edits s key).value := by
        have hwhole := horder.mono (Nat.le_refl _) hinside
        rw [Setting.spliced, EditList.ofEdits_inOrder hwhole]
        exact EditList.spliceIn_eq_weave hwhole hbegin hstop
    _ = _ := by
        rw [← weave_slice horder hinside hbegin hfirst hstop, ← hend]
        rfl

theorem StringProperty.assigned {p : Node} {name : Option String} (h : StringProperty s p name value) :
    Assigned references name value (attributes s [p]).value := by
  obtain ⟨hvalue, hend, hplaced⟩ := h
  rename_i computed span key node a b
  obtain ⟨front, hspliced⟩ := spliced_property hvalue hend hplaced
  obtain ⟨hliteral⟩ := hvalue
  rename_i value own
  have hquoted : quotedValue? s [key, .mk (.string value) own []] =
      some (if Attribute.isPlainQuoted (s.slice own) then s.slice own else braced (s.slice own)) := rfl
  cases hname : Attribute.name? .value computed [key, .mk (.string value) own []] with
  | some name =>
    have htext : (attributes s [.mk (.property .value computed) span
        [key, .mk (.string value) own []]]).value = assignedAttribute name
          (if Attribute.isPlainQuoted (s.slice own) then s.slice own else braced (s.slice own)) := by
      simp only [attributes, hname, hquoted]
      exact List.append_nil _
    rw [htext]
    exact .named fun rest => attributeValue?_literal hliteral
  | none =>
    obtain ⟨quote, body, hread⟩ := literal_of_literal? hliteral
    have hedits : (edits s (.mk (.property .value computed) span
        [key, .mk (.string value) own []])).value = (edits s key).value := by
      simp [edits, editsAll]
    have htext : (attributes s [.mk (.property .value computed) span
        [key, .mk (.string value) own []]]).value =
          spreadAttribute (braced (front ++ s.slice own)) := by
      simp only [attributes, hname, hquoted]
      simp [hedits, hspliced, Node.span]
    rw [htext]
    exact .spread hread.read

/-! ### Elements -/

/-- The text of an element: some attributes in its opening tag, and some children between its tags. -/
structure Written (text attributes : List Char) (children : Option (List Char)) : Prop where
  attributes : ∃ opening closing, text = opening ++ attributes ++ closing ∧
    (['>'] <+: closing ∨ " />".toList <+: closing)
  children : ∀ inner ∈ children, ∃ opening closing,
    text = opening ++ '>' :: (inner ++ "</".toList ++ closing)

namespace Written

variable {text attributes : List Char} {children : Option (List Char)}

theorem tagged (name : String) (attributes : List Char) (children : Option (List Char)) :
    Written (tagged name attributes children) attributes children where
  attributes := by
    cases children with
    | none => exact ⟨'<' :: name.toList, " />".toList, rfl, .inr (List.prefix_refl _)⟩
    | some inner =>
      refine ⟨'<' :: name.toList, '>' :: inner ++ "</".toList ++ name.toList ++ ['>'], ?_, .inl ⟨_, rfl⟩⟩
      simp [Rewrite.tagged]
  children := by
    rintro inner hinner
    obtain rfl := Option.mem_def.1 hinner
    refine ⟨'<' :: name.toList ++ attributes, name.toList ++ ['>'], ?_⟩
    simp [Rewrite.tagged]

theorem inside (h : Written text attributes children) (front back : List Char) :
    Written (front ++ text ++ back) attributes children where
  attributes := by
    obtain ⟨opening, closing, rfl, hclosing⟩ := h.attributes
    refine ⟨front ++ opening, closing ++ back, by simp, hclosing.imp ?_ ?_⟩ <;>
      exact fun h => h.trans (List.prefix_append _ _)
  children := by
    intro inner hinner
    obtain ⟨opening, closing, rfl⟩ := h.children inner hinner
    exact ⟨front ++ opening, closing ++ back, by simp⟩

theorem adapted (adapter temp : String) (tag attributes children : List Char) :
    Written (adapted adapter temp tag attributes children) attributes (some children) :=
  (tagged temp attributes (some children)).inside _ _

theorem fragment (children : List Char) :
    Written ("<>".toList ++ children ++ "</>".toList) [] (some children) := by
  have htext : "<>".toList ++ children ++ "</>".toList = Rewrite.tagged "" [] (some children) := by
    simp [Rewrite.tagged]
  rw [htext]
  exact tagged "" [] (some children)

end Written

/-- The text of a call is an element with the attributes and the children that its arguments become. A
fragment has no attributes. -/
theorem element_written {call : Span} {callee tag argument : Node} {children : List Node}
    {made : Draft Element}
    (hmade : element? s call (callee :: tag :: argument :: children) = some made) :
    ∃ inside : Setting, inside.text = s.text ∧ ∃ attributes written,
      Written made.value.text attributes written ∧
      (s.tag tag ≠ .fragment → attributes = (propsText inside (argument :: children)).value) ∧
      (children ≠ [] → written = some (childTexts inside children).value) := by
  simp only [element?] at hmade
  split at hmade
  · cases hmade
  · cases hmade
  · obtain rfl := Option.some.inj hmade
    split
    next name htag =>
      refine ⟨s, rfl, _, _, .tagged .., fun _ => rfl, fun hne => if_neg ?_⟩
      have hpos := List.length_pos_iff.2 hne
      rw [List.length_cons]
      omega
    next htag => exact ⟨s, rfl, _, _, .fragment _, fun h => absurd htag h, fun _ => rfl⟩
    next htag =>
      let names := (s.names.pushScope.allocate s.options.tempTagName (s.slice call)).2
      exact ⟨{ s with names := names }, rfl, _, _, .adapted .., fun _ => rfl, fun _ => rfl⟩

theorem StringNode.of_text {s' : Setting} (h : StringNode s n value) (htext : s'.text = s.text) :
    StringNode s' n value := by
  obtain ⟨h⟩ := h
  refine .mk ?_
  rwa [Setting.slice, htext]

theorem StringProperty.of_text {s' : Setting} {name : Option String} (h : StringProperty s n name value)
    (htext : s'.text = s.text) : StringProperty s' n name value := by
  obtain ⟨hvalue, hend, hplaced⟩ := h
  exact .mk (hvalue.of_text htext) hend (by rwa [htext])

/-- String literals in a call that makes an element keep their values, whatever the references of markup
stand for. A literal that is the value of a property, unless the tag is a fragment, is written in the
opening tag, and to read the attribute there yields its value. Literals in a row among the children are
written between the tags, and to read what is written of them, up to the tag or the brace behind it,
yields pieces that make up their values in the same order; one at least, and no more than literals, so what is
read of a single literal is its value. -/
theorem strings_keep_value (references : References) (s : Setting) {call : Span}
    {callee tag argument : Node} {children : List Node} {made : Draft Element}
    (hmade : element? s call (callee :: tag :: argument :: children) = some made) :
    ∃ inside : Setting, inside.text = s.text ∧ ∃ attributes written,
      Written made.value.text attributes written ∧
      (∀ {object : Span} {before after : List Node} {p : Node} {name : Option String}
          {value : List Char}, s.tag tag ≠ .fragment →
        argument.inner = .mk .object object (before ++ p :: after) → StringProperty s p name value →
        ∃ own, attributes =
            (Rewrite.attributes inside before).value ++ own ++ (Rewrite.attributes inside after).value ∧
          Assigned references name value own) ∧
      (∀ {before run after : List Node} {values : List (List Char)}, run ≠ [] →
        children = before ++ run ++ after → List.Forall₂ (StringNode s) run values →
        ∃ own, written = some
            ((childTexts inside before).value ++ own ++ (childTexts inside after).value) ∧
          ∀ rest, rest.head? = some '<' ∨ rest.head? = some '{' →
            ∃ pieces, Children references (own ++ rest) pieces rest ∧
              pieces.flatten = values.flatten ∧ pieces ≠ [] ∧ pieces.length ≤ run.length) := by
  obtain ⟨inside, htext, attributes, written, hwritten, hattributes, hchildren⟩ := element_written hmade
  refine ⟨inside, htext, attributes, written, hwritten, ?_, ?_⟩
  · intro object before after p name value htag hobject hproperty
    refine ⟨(Rewrite.attributes inside [p]).value, ?_, (hproperty.of_text htext).assigned⟩
    rw [hattributes htag, propsText, props_of_inner hobject, attributes_append, attributes_cons,
      List.append_assoc]
  · intro before run after values hrun hsplit hstrings
    have hne : children ≠ [] := by
      rw [hsplit]
      simp [hrun]
    refine ⟨(childTexts inside run).value, ?_, fun rest hrest => ?_⟩
    · rw [hchildren hne, hsplit, childTexts_append, childTexts_append]
    · have hinside := hstrings.imp fun _ _ h => h.of_text htext
      have hread : ∃ pieces, Children references ([] ++ ((childTexts inside run).value ++ rest)) pieces
          rest ∧ _ := strings_read hinside (by simp) hrest
      obtain ⟨pieces, hread, hvalue, hempty, hlength⟩ := hread
      exact ⟨pieces, hread, hvalue, fun h => hrun (hempty h).2, hlength⟩

/-- A paragraph with a title and two strings for children. -/
def titled : Setting :=
  ⟨"h(\"p\",\x7btitle:\"a\"\x7d,\"b\",\"\\n\")".toList, AliasFrame.empty.add .factory "h", {}, .unscoped, []⟩

def title : Node :=
  .mk (.property .value false) ⟨7, 16⟩ [.mk (.key "title") ⟨7, 12⟩ [], .mk (.string "a") ⟨13, 16⟩ []]

def lines : List Node := [.mk (.string "b") ⟨18, 21⟩ [], .mk (.string "\n") ⟨22, 26⟩ []]

/-- A table that knows the ampersand alone. -/
def ampersand : References := fun name => if name == "amp".toList then some ['&'] else none

theorem strings_keep_value_titled : ∃ made, element? titled ⟨0, 27⟩ (.mk (.reference "h") ⟨0, 1⟩ [] ::
      .mk (.string "p") ⟨2, 5⟩ [] :: .mk .object ⟨6, 17⟩ [title] :: lines) = some made ∧
    ∃ attributes written, Written made.value.text attributes (some written) ∧
      Assigned ampersand (some "title") ['a'] attributes ∧
      ∃ pieces, Children ampersand (written ++ "</p>".toList) pieces "</p>".toList ∧
        pieces.flatten = ['b', '\n'] := by
  have hsome : (element? titled ⟨0, 27⟩ (.mk (.reference "h") ⟨0, 1⟩ [] ::
      .mk (.string "p") ⟨2, 5⟩ [] :: .mk .object ⟨6, 17⟩ [title] :: lines)).isSome = true := by
    decide +kernel
  have htitle : StringProperty titled title (Attribute.name? .value false title.parts) "a".toList :=
    .mk (a := 7) (b := 16) (.mk (by decide +kernel)) rfl (by decide +kernel)
  have hlines : List.Forall₂ (StringNode titled) lines ["b".toList, "\n".toList] :=
    .cons (.mk (by decide +kernel)) (.cons (.mk (by decide +kernel)) .nil)
  obtain ⟨made, hmade⟩ := Option.isSome_iff_exists.1 hsome
  obtain ⟨inside, -, attributes, written, hwritten, hprops, hchildren⟩ :=
    strings_keep_value ampersand titled hmade
  obtain ⟨own, rfl, hassigned⟩ :=
    hprops (by decide +kernel) (show _ = Node.mk .object _ ([] ++ title :: []) from rfl) htitle
  obtain ⟨own', rfl, hread⟩ :=
    hchildren (by decide) (show lines = [] ++ lines ++ [] from rfl) hlines
  obtain ⟨pieces, hpieces, hvalue, -⟩ := hread "</p>".toList (.inl rfl)
  refine ⟨made, hmade, _, _, hwritten, ?_, pieces, ?_, hvalue⟩
  · have hname : Attribute.name? .value false title.parts = some "title" := by decide +kernel
    rw [← hname]
    simpa [Rewrite.attributes] using hassigned
  · simpa [childTexts] using hpieces

/-- A unit with a fragment that has a key. -/
def keyed : List Char :=
  "import\x7bcreateElement as h,Fragment as F\x7dfrom\"react\";h(F,\x7bkey:\"deep\"\x7d)".toList

/-- A fragment has no attributes, so the value of its key is read nowhere. -/
theorem fragment_without_key : ((Transformer.ofOptions {}).transform none keyed).1.toOption =
      some "import\x7bcreateElement as h,Fragment as F\x7dfrom\"react\";<></>".toList ∧
    ¬ "deep".toList <:+: "import\x7bcreateElement as h,Fragment as F\x7dfrom\"react\";<></>".toList :=
  ⟨by decide +kernel, by decide +kernel⟩

end FineGrain
