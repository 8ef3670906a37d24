import FineGrain.Proofs.AnonymousFunction.Naming
import FineGrain.Proofs.Rewrite.Importing
/-!
Generated names are hygienic. A name is made for a construct, an effect callback or a call that makes an
element of an adapted tag, and occurs nowhere in the text of it; the names of the constructs around it
and those given to the unit at large are others. Text is what is compared: a name that the unit spells
with an escape is not found.
-/

namespace FineGrain

open Grammar Rewrite

def Generated.name : Generated → String
  | .copy name _ => name
  | .tag name => name

/-- A construct that names are made for: where they are visible, and what binds them. -/
structure Construct where
  span : Span
  made : List Generated
deriving DecidableEq, Repr

def Construct.names (c : Construct) : List String := c.made.map Generated.name

namespace Setting

/-- The name that an adapted tag is bound to, and what is visible behind it. -/
def temporary (s : Setting) (call : Span) : String × Names :=
  s.names.pushScope.allocate s.options.tempTagName (s.slice call)

def tagging (s : Setting) (call : Span) : Construct := ⟨call, [.tag (s.temporary call).1]⟩

/-- The construct that a call which makes an element is, if its tag has to be adapted. -/
def tagging? (s : Setting) (call : Span) : List Node → Option Construct
  | _ :: tag :: _ =>
      match s.tag tag with
      | .dynamic => some (s.tagging call)
      | _ => none
  | _ => none

def peeking (s : Setting) (callback : Node) : Construct :=
  ⟨callback.span, (s.copies callback).map fun c => .copy c.copy c.source⟩

end Setting

mutual

/-- The constructs of a tree that names are made for, each with those around it, innermost first. -/
def constructs (s : Setting) (around : List Construct) : Node → List (Construct × List Construct)
  | .mk label span parts =>
      match label with
      | .call =>
          match s.atElement? span parts with
          | some inside =>
              let own := (s.tagging? span parts).toList
              own.map (·, around) ++ constructsAll inside (own ++ around) parts
          | none =>
              if parts.head?.any s.isEffect then effectConstructs s around parts
              else constructsAll s around parts
      | _ => constructsAll s around parts

def constructsAll (s : Setting) (around : List Construct) :
    List Node → List (Construct × List Construct)
  | [] => []
  | n :: rest => constructs s around n ++ constructsAll s around rest

def effectConstructs (s : Setting) (around : List Construct) :
    List Node → List (Construct × List Construct)
  | [] => []
  | [callee] => constructs s around callee
  | callee :: .mk label span parts :: rest =>
      let callback := Node.mk label span parts
      let argument :=
        if isCallback label then
          let c := s.peeking callback
          (c, around) :: bodyConstructs (s.inside callback) (c :: around) parts
        else constructs s around callback
      constructs s around callee ++ argument ++ constructsAll s around rest

/-- The constructs in the body of a callback, which is the last of its parts. -/
def bodyConstructs (s : Setting) (around : List Construct) :
    List Node → List (Construct × List Construct)
  | [] => []
  | [.mk (.body _) _ parts] => constructsAll s around parts
  | _ :: rest => bodyConstructs s around rest

end

theorem constructs_paren {s : Setting} {around : List Construct} {span : Span} {e : Node} :
    constructs s around (.mk .paren span [e]) = constructs s around e := by
  simp [constructs, constructsAll]

theorem bodyConstructs_skip {s : Setting} {around : List Construct} {label : Label} {span : Span}
    {parts rest : List Node} (h : ∀ directives, label = .body directives → rest ≠ []) :
    bodyConstructs s around (.mk label span parts :: rest) = bodyConstructs s around rest := by
  rw [bodyConstructs]
  rintro directives _ _ ⟨⟩ rfl
  exact h directives rfl rfl

/-! ### Names are apart -/

/-- The names of a construct occur nowhere in its text. None of them is known beforehand, belongs to a
construct around it, or is made twice. -/
structure Construct.Apart (text : List Char) (known : List String) (around : List Construct)
    (c : Construct) : Prop where
  absent : ∀ name ∈ c.names, ¬ name.toList <:+: Text.slice text c.span
  unknown : ∀ name ∈ c.names, name ∉ known
  outer : ∀ name ∈ c.names, ∀ o ∈ around, name ∉ o.names
  nodup : c.names.Nodup

/-- What is known beforehand is taken, and so are the names of the constructs around. -/
structure Names.Remembers (names : Names) (known : List String) (around : List Construct) : Prop where
  scopes : names.scopes ≠ []
  known : ∀ name ∈ known, name ∈ names.taken
  around : ∀ o ∈ around, ∀ name ∈ o.names, name ∈ names.taken

variable {known : List String} {around : List Construct} {s : Setting}

namespace Names

variable {after : Names}

theorem Remembers.apart (h : s.names.Remembers known around) (c : Construct)
    (hgiven : Handed (s.slice c.span) s.names c.names after) : c.Apart s.text known around where
  absent name hname := (hgiven.apart name hname).1
  unknown name hname hknown := (hgiven.apart name hname).2 (h.known name hknown)
  outer name hname o ho hother := (hgiven.apart name hname).2 (h.around o ho name hother)
  nodup := hgiven.nodup

theorem Remembers.enter (h : s.names.Remembers known around) (c : Construct)
    (hgiven : Handed (s.slice c.span) s.names c.names after) :
    after.Remembers known (c :: around) where
  scopes := hgiven.scopes
  known name hname := (hgiven.taken name).2 (.inr (h.known name hname))
  around := by
    refine List.forall_mem_cons.2 ⟨fun name hname => (hgiven.taken name).2 (.inl hname), ?_⟩
    exact fun o ho name hname => (hgiven.taken name).2 (.inr (h.around o ho name hname))

end Names

namespace Setting

theorem handed_snapshots (s : Setting) (visible : List Char) (copied : List Lexical.FreeVariable)
    (names : Names) (hscope : names.scopes ≠ []) :
    let made := s.snapshots visible copied names
    Names.Handed visible names (made.1.map Snapshot.copy) made.2 := by
  induction copied generalizing names with
  | nil => exact .nil hscope
  | cons v rest ih => exact .cons hscope (ih _ (Names.scopes_record hscope))

theorem handed_peeking (s : Setting) (callback : Node) :
    Names.Handed (s.slice callback.span) s.names (s.peeking callback).names
      (s.inside callback).names := by
  have hnames : (s.peeking callback).names = (s.copies callback).map Snapshot.copy := by
    simp [peeking, Construct.names, Function.comp_def, Generated.name]
  rw [hnames]
  exact (s.handed_snapshots _ _ _ s.names.scopes_pushScope).of_pushScope

theorem handed_tagging (s : Setting) (call : Span) :
    Names.Handed (s.slice call) s.names (s.tagging call).names (s.temporary call).2 :=
  (Names.Handed.one s.names.scopes_pushScope).of_pushScope

theorem atElement_cases {call : Span} {parts : List Node} {inside : Setting}
    (h : s.atElement? call parts = some inside) :
    (s.tagging? call parts = none ∧ inside = s) ∨
      s.tagging? call parts = some (s.tagging call) ∧
        inside = { s with names := (s.temporary call).2 } := by
  match parts, h with
  | callee :: tag :: rest, h =>
    rw [atElement?] at h
    split at h
    · cases h
    · cases h
    · cases h
      cases htag : s.tag tag <;> simp [tagging?, temporary, htag]

end Setting

mutual

theorem constructs_apart (s : Setting) (around : List Construct)
    (h : s.names.Remembers known around) : ∀ n : Node,
    ∀ p ∈ constructs s around n, p.1.Apart s.text known p.2
  | .mk label span parts => by
    have hall := constructsAll_apart s around h parts
    have heffect := effectConstructs_apart s around h parts
    cases label with
    | call =>
      rw [constructs]
      cases helement : s.atElement? span parts with
      | none =>
        dsimp only
        split
        · exact heffect
        · exact hall
      | some inside =>
        rcases s.atElement_cases helement with ⟨hnone, rfl⟩ | ⟨hsome, rfl⟩
        · simpa [hnone] using hall
        · have hgiven := s.handed_tagging span
          rw [hsome]
          refine List.forall_mem_cons.2 ⟨h.apart (s.tagging span) hgiven, ?_⟩
          exact constructsAll_apart { s with names := (s.temporary span).2 } _
            (h.enter (s.tagging span) hgiven) parts
    | _ => exact hall

theorem constructsAll_apart (s : Setting) (around : List Construct)
    (h : s.names.Remembers known around) : ∀ ns : List Node,
    ∀ p ∈ constructsAll s around ns, p.1.Apart s.text known p.2
  | [] => List.forall_mem_nil _
  | n :: rest => List.forall_mem_append.2
      ⟨constructs_apart s around h n, constructsAll_apart s around h rest⟩

theorem effectConstructs_apart (s : Setting) (around : List Construct)
    (h : s.names.Remembers known around) : ∀ ns : List Node,
    ∀ p ∈ effectConstructs s around ns, p.1.Apart s.text known p.2
  | [] => List.forall_mem_nil _
  | [callee] => constructs_apart s around h callee
  | callee :: .mk label span parts :: rest => by
    have hargument := constructs_apart s around h (.mk label span parts)
    have hgiven := s.handed_peeking (.mk label span parts)
    have hbody := bodyConstructs_apart (s.inside (.mk label span parts)) _
      (h.enter (s.peeking (.mk label span parts)) hgiven) parts
    rw [effectConstructs]
    refine List.forall_mem_append.2 ⟨List.forall_mem_append.2
      ⟨constructs_apart s around h callee, ?_⟩, constructsAll_apart s around h rest⟩
    split
    · exact List.forall_mem_cons.2 ⟨h.apart _ hgiven, hbody⟩
    · exact hargument

theorem bodyConstructs_apart (s : Setting) (around : List Construct)
    (h : s.names.Remembers known around) : ∀ ns : List Node,
    ∀ p ∈ bodyConstructs s around ns, p.1.Apart s.text known p.2
  | [] => List.forall_mem_nil _
  | .mk label span parts :: rest => by
    rcases body_or_skip label rest with ⟨directives, rfl, rfl⟩ | hother
    · exact constructsAll_apart s around h parts
    · rw [bodyConstructs_skip hother]
      exact bodyConstructs_apart s around h rest

end

/-! ### Constructs are nested -/

/-- Whether constructs stand around a stretch of the text. -/
def Encloses (around : List Construct) (a b : Nat) : Prop :=
  ∀ o ∈ around, o.span.start ≤ a ∧ b ≤ o.span.stop

/-- Whether constructs stand inside those around them. -/
def Nested (found : List (Construct × List Construct)) : Prop :=
  ∀ p ∈ found, Encloses p.2 p.1.span.start p.1.span.stop

theorem Encloses.mono {a b a' b' : Nat} (h : Encloses around a b) (ha : a ≤ a') (hb : b' ≤ b) :
    Encloses around a' b' :=
  fun o ho => ⟨Nat.le_trans (h o ho).1 ha, Nat.le_trans hb (h o ho).2⟩

theorem Encloses.cons {a b : Nat} {c : Construct} (h : Encloses around a b)
    (ha : c.span.start ≤ a) (hb : b ≤ c.span.stop) : Encloses (c :: around) a b :=
  List.forall_mem_cons.2 ⟨⟨ha, hb⟩, h⟩

theorem placed_le {text : List Char} {n : Node} {a b : Nat} (h : placed? text a n = some b) : a ≤ b :=
  (rendered ⟨text, .empty, default, .unscoped, []⟩ n h).laid.le

theorem placedAll_le {text : List Char} {ns : List Node} {a b : Nat}
    (h : placedAll? text a ns = some b) : a ≤ b :=
  (laid_all ⟨text, .empty, default, .unscoped, []⟩ ns h).le

theorem placedBody_le {text : List Char} {ns : List Node} {concise : Bool} {a b : Nat}
    (h : placedBody? text concise a ns = some b) : a ≤ b :=
  (laid_body ⟨text, .empty, default, .unscoped, []⟩ ns h).le

mutual

theorem nested_constructs (s : Setting) (around : List Construct) : ∀ (n : Node) {a b : Nat},
    placed? s.text a n = some b → Encloses around a b → Nested (constructs s around n)
  | .mk label span parts, a, b, h, henclosed => by
    have hall := @nested_constructsAll s around parts
    have hbody := @nested_constructsBody s around parts
    have heffect := @nested_effectConstructs s around parts
    cases hsilent : isSilent (.mk label span parts) with
    | true =>
      have hnone : constructs s around (.mk label span parts) = [] := by
        unfold isSilent at hsilent
        split at hsilent <;> simp_all [constructs, constructsAll]
      rw [hnone]
      exact List.forall_mem_nil _
    | false =>
      obtain ⟨-, -, rfl, c, d, hfront, hd, hinner⟩ := placed_parts h hsilent
      have hparts : Encloses around c d := henclosed.mono (front?_le hfront).1 hd
      have hplain : Nested (constructsAll s around parts) := by
        rcases hinner with ⟨concise, -, -, hplaced⟩ | ⟨-, hplaced⟩
        · exact hbody hplaced hparts
        · exact hall hplaced hparts
      cases label with
      | call =>
        obtain ⟨-, hplaced⟩ := hinner.resolve_left (by simp [isCallback])
        obtain rfl := front?_eq hfront (by simp)
        rw [constructs]
        cases helement : s.atElement? span parts with
        | none =>
          dsimp only
          split
          · exact heffect hplaced hparts
          · exact hplain
        | some inside =>
          -- The call itself may be a construct: it stands in those around it, and its parts stand
          -- in it as well.
          rcases s.atElement_cases helement with ⟨hnone, rfl⟩ | ⟨hsome, rfl⟩
          · simpa [hnone] using hplain
          · rw [hsome]
            refine List.forall_mem_cons.2 ⟨henclosed.mono (front?_le hfront).1 (Nat.le_refl _), ?_⟩
            exact nested_constructsAll { s with names := (s.temporary span).2 } _ parts hplaced
              (hparts.cons (c := s.tagging span) (Nat.le_refl _) hd)
      | _ => exact hplain

theorem nested_constructsAll (s : Setting) (around : List Construct) : ∀ (ns : List Node) {a b : Nat},
    placedAll? s.text a ns = some b → Encloses around a b → Nested (constructsAll s around ns)
  | [], _, _, _, _ => List.forall_mem_nil _
  | n :: rest, a, b, h, henclosed => by
    obtain ⟨c, hn, hrest⟩ := placedAll_cons h
    exact List.forall_mem_append.2
      ⟨nested_constructs s around n hn (henclosed.mono (Nat.le_refl _) (placedAll_le hrest)),
        nested_constructsAll s around rest hrest (henclosed.mono (placed_le hn) (Nat.le_refl _))⟩

theorem nested_constructsBody (s : Setting) (around : List Construct) :
    ∀ (ns : List Node) {concise : Bool} {a b : Nat}, placedBody? s.text concise a ns = some b →
    Encloses around a b → Nested (constructsAll s around ns)
  | [], _, _, _, _, _ => List.forall_mem_nil _
  | .mk label span parts :: rest, concise, a, b, h, henclosed => by
    have hparts := @nested_constructsAll s around parts
    have hn := @nested_constructs s around (.mk label span parts)
    have hrest := @nested_constructsBody s around rest
    rcases placedBody_cons h with ⟨directives, d, rfl, rfl, rfl, hbody⟩ | ⟨-, c, hc, hb⟩
    · have hinside := henclosed.mono (Nat.le_trans hbody.front hbody.above) hbody.inside
      simpa [constructsAll, constructs] using hparts hbody.statements hinside
    · exact List.forall_mem_append.2
        ⟨hn hc (henclosed.mono (Nat.le_refl _) (placedBody_le hb)),
          hrest hb (henclosed.mono (placed_le hc) (Nat.le_refl _))⟩

theorem nested_effectConstructs (s : Setting) (around : List Construct) :
    ∀ (ns : List Node) {a b : Nat}, placedAll? s.text a ns = some b → Encloses around a b →
    Nested (effectConstructs s around ns)
  | [], _, _, _, _ => List.forall_mem_nil _
  | [callee], a, b, h, henclosed => by
    obtain ⟨c, hn, hrest⟩ := placedAll_cons h
    exact nested_constructs s around callee hn (henclosed.mono (Nat.le_refl _) (placedAll_le hrest))
  | callee :: .mk label span parts :: rest, a, b, h, henclosed => by
    obtain ⟨c, hcallee, hmore⟩ := placedAll_cons h
    obtain ⟨d, hn, hrest⟩ := placedAll_cons hmore
    have hac := placed_le hcallee
    have hcd := placed_le hn
    have hargument : Encloses around c d := henclosed.mono hac (placedAll_le hrest)
    refine List.forall_mem_append.2 ⟨List.forall_mem_append.2
      ⟨nested_constructs s around callee hcallee (henclosed.mono (Nat.le_refl _) (placedAll_le hmore)),
        ?_⟩, nested_constructsAll s around rest hrest (henclosed.mono (Nat.le_trans hac hcd)
          (Nat.le_refl _))⟩
    cases hcallback : isCallback label with
    | false =>
      rw [if_neg Bool.false_ne_true]
      exact nested_constructs s around _ hn hargument
    | true =>
      obtain ⟨-, -, rfl, top, bottom, hfront, hbottom, hinner⟩ := placed_parts hn
        (by cases label <;> simp_all [isCallback, isSilent])
      obtain ⟨concise, -, -, hbody⟩ := hinner.resolve_right (by simp [hcallback])
      obtain rfl := front?_eq hfront (by rintro rfl; cases hcallback)
      have htop := (front?_le hfront).1
      rw [if_pos rfl]
      refine List.forall_mem_cons.2 ⟨hargument.mono htop (Nat.le_refl _), ?_⟩
      exact nested_bodyConstructs (s.inside (.mk label span parts)) _ parts hbody
        ((hargument.mono htop hbottom).cons (c := s.peeking (.mk label span parts)) (Nat.le_refl _)
          hbottom)

theorem nested_bodyConstructs (s : Setting) (around : List Construct) :
    ∀ (ns : List Node) {concise : Bool} {a b : Nat}, placedBody? s.text concise a ns = some b →
    Encloses around a b → Nested (bodyConstructs s around ns)
  | [], _, _, _, _, _ => List.forall_mem_nil _
  | .mk label span parts :: rest, concise, a, b, h, henclosed => by
    have hparts := @nested_constructsAll s around parts
    have hrest := @nested_bodyConstructs s around rest
    rcases placedBody_cons h with ⟨directives, d, rfl, rfl, rfl, hbody⟩ | ⟨hother, c, hc, hb⟩
    · exact hparts hbody.statements (henclosed.mono (Nat.le_trans hbody.front hbody.above) hbody.inside)
    · rw [bodyConstructs_skip hother]
      exact hrest hb (henclosed.mono (placed_le hc) (Nat.le_refl _))

end

/-! ### All names belong to constructs -/

/-- Whether some bindings are made at some constructs. -/
def MadeAt (found : List (Construct × List Construct)) (made : List Generated) : Prop :=
  made ⊆ found.flatMap (·.1.made)

namespace MadeAt

variable {found more : List (Construct × List Construct)} {made rest : List Generated}

@[simp] theorem nil : MadeAt found [] := List.nil_subset _

theorem append (h : MadeAt found made) (hrest : MadeAt more rest) :
    MadeAt (found ++ more) (made ++ rest) := by
  rw [MadeAt, List.flatMap_append]
  exact List.append_subset.2 ⟨List.subset_append_of_subset_left _ h,
    List.subset_append_of_subset_right _ hrest⟩

theorem left (h : MadeAt found made) : MadeAt (found ++ more) made := by
  have hnone : MadeAt more [] := nil
  simpa using h.append hnone

theorem both (h : MadeAt found made) (hrest : MadeAt found rest) : MadeAt found (made ++ rest) :=
  List.append_subset.2 ⟨h, hrest⟩

theorem right (h : MadeAt more made) : MadeAt (found ++ more) made := by
  have hnone : MadeAt found [] := nil
  simpa using hnone.append h

end MadeAt

mutual

theorem made_edits (s : Setting) (around : List Construct) : ∀ n : Node, complete n = true →
    MadeAt (constructs s around n) (edits s n).generated
  | .mk label span parts, h => by
    obtain ⟨-, -, hall⟩ := complete_mk h
    have hplain := made_editsAll s around parts hall
    have helement := made_element s around span parts hall
    have heffect := made_effectEdits s around parts hall
    have hcontainer := made_containerEdits s around parts hall
    cases label with
    | call =>
      rw [edits, constructs]
      generalize element? s span parts = element at helement ⊢
      generalize s.atElement? span parts = inside at helement ⊢
      cases helement with
      | some helement => simpa using helement
      | none =>
        dsimp only
        split
        · exact heffect
        · exact hplain
    | container =>
      rw [edits]
      split
      · exact hcontainer
      · exact hplain
    | reference name => exact .nil
    | property form computed =>
      cases form with
      | shorthand =>
        rw [edits]
        split
        · exact .nil
        · exact hplain
      | _ => exact hplain
    | _ => exact hplain

theorem made_editsAll (s : Setting) (around : List Construct) : ∀ ns : List Node,
    completeAll ns = true → MadeAt (constructsAll s around ns) (editsAll s ns).generated
  | [], _ => .nil
  | n :: rest, h => by
    obtain ⟨hn, hrest⟩ := completeAll_cons h
    simpa [editsAll, constructsAll] using
      (made_edits s around n hn).append (made_editsAll s around rest hrest)

theorem made_containerEdits (s : Setting) (around : List Construct) : ∀ ns : List Node,
    completeAll ns = true → MadeAt (constructsAll s around ns) (containerEdits s ns).generated
  | [], _ => .nil
  | e :: rest, h => by
    obtain ⟨he, hrest⟩ := completeAll_cons h
    have hwhole := made_edits s around e he
    have hmore := made_editsAll s around rest hrest
    have hposition := made_position s around (fun _ => do return s.spliced e.span (← edits s e)) e he
      (by simpa using hwhole)
    simp only [containerEdits, constructsAll]
    split
    · rename_i text htext
      simpa using (hposition text htext).append hmore
    · simpa using hwhole.append hmore

theorem made_position (s : Setting) (around : List Construct) (whole : Unit → Draft (List Char)) :
    ∀ n : Node, complete n = true → MadeAt (constructs s around n) (whole ()).generated →
    ∀ d, position? s whole n = some d → MadeAt (constructs s around n) d.generated
  | .mk label span parts, h, hwhole => by
    obtain ⟨-, -, hall⟩ := complete_mk h
    have hproperties := made_propertyTexts s around parts hall
    have hinner : ∀ e, parts = [e] → MadeAt (constructs s around e) (whole ()).generated →
        ∀ d, position? s whole e = some d → MadeAt (constructs s around e) d.generated :=
      match parts with
      | [] | _ :: _ :: _ => by simp
      | [e] => by
        rintro e' ⟨⟩
        exact made_position s around whole e (completeAll_cons hall).1
    unfold position?
    split
    all_goals try (intro d hnone; cases hnone; done)
    · rename_i e
      rw [constructs_paren] at hwhole ⊢
      exact hinner e rfl hwhole
    · rintro d ⟨⟩
      simpa [constructs] using hproperties
    · rintro d ⟨⟩
      simpa using hwhole
    · rintro d ⟨⟩
      simpa using hwhole

theorem made_propertyTexts (s : Setting) (around : List Construct) : ∀ ns : List Node,
    completeAll ns = true → MadeAt (constructsAll s around ns) (propertyTexts s ns).generated
  | [], _ => .nil
  | .mk label span parts :: rest, h => by
    obtain ⟨hn, hrest⟩ := completeAll_cons h
    obtain ⟨-, -, hall⟩ := complete_mk hn
    have hwhole := made_edits s around (.mk label span parts) hn
    have hoperand := made_operandText s around parts hall
    have hvalue := made_valueText s around parts hall
    have hmore := made_propertyTexts s around rest hrest
    simp only [propertyTexts, constructsAll]
    split
    · simpa [constructs] using hoperand.append hmore
    · simpa [constructs] using hvalue.append hmore
    · simpa using hwhole.append hmore

theorem made_valueText (s : Setting) (around : List Construct) : ∀ ns : List Node,
    completeAll ns = true → MadeAt (constructsAll s around ns) (valueText s ns).generated
  | [], _ => .nil
  | [_], _ => .nil
  | _ :: e :: more, h => by
    obtain ⟨he, -⟩ := completeAll_cons (completeAll_cons h).2
    have hwhole := made_edits s around e he
    have hposition := made_position s around (fun _ => do return s.spliced e.span (← edits s e)) e he
      (by simpa using hwhole)
    simp only [valueText, constructsAll]
    refine MadeAt.right (MadeAt.left ?_)
    cases htext : position? s _ e with
    | some text => exact hposition text htext
    | none => simpa using hwhole

theorem made_operandText (s : Setting) (around : List Construct) : ∀ ns : List Node,
    completeAll ns = true → MadeAt (constructsAll s around ns) (operandText s ns).generated
  | [], _ => .nil
  | e :: _, h => by
    have he := made_edits s around e (completeAll_cons h).1
    simpa [operandText, constructsAll] using he.left

theorem made_element (s : Setting) (around : List Construct) (call : Span) : ∀ ns : List Node,
    completeAll ns = true →
    Option.Rel (fun d inside =>
        let own := (s.tagging? call ns).toList
        MadeAt (own.map (·, around) ++ constructsAll inside (own ++ around) ns) d.generated)
      (element? s call ns) (s.atElement? call ns)
  | [], _ => .none
  | [_], _ => .none
  | callee :: tag :: rest, h => by
    obtain ⟨-, htag, hrest⟩ := (completeAll_cons h).imp_right completeAll_cons
    have htag (s : Setting) (around : List Construct) := made_edits s around tag htag
    have hprops (s : Setting) (around : List Construct) := made_propsText s around rest hrest
    have hchildren (s : Setting) (around : List Construct) := made_childrenText s around rest hrest
    rcases s.factory_cases callee tag with hfactory | ⟨hfactory, last, hlast⟩ | ⟨hfactory, hother⟩
    · simp [element?, Setting.atElement?, hfactory]
    · simp [element?, Setting.atElement?, hfactory, hlast]
    · simp only [element?, Setting.atElement?, hfactory, Setting.tagging?, constructsAll]
      refine .some ?_
      cases hkind : s.tag tag with
      | name name =>
        have hrest := (hprops s around).both (hchildren s around)
        simpa using hrest.right.right
      | fragment => simpa using (hchildren s around).right.right
      | dynamic =>
        let inside : Setting := { s with names := (s.temporary call).2 }
        let own := s.tagging call
        have hrest := (hprops inside (own :: around)).both (hchildren inside (own :: around))
        have hparts : MadeAt (constructsAll inside (own :: around) (callee :: tag :: rest)) _ :=
          ((htag inside (own :: around)).append hrest).right
        have hown : MadeAt [(own, around)] [.tag (s.temporary call).1] := by
          simp [MadeAt, own, Setting.tagging]
        simpa [own, inside, Setting.temporary, constructsAll] using hparts.right.both hown.left

theorem made_propsText (s : Setting) (around : List Construct) : ∀ ns : List Node,
    completeAll ns = true → MadeAt (constructsAll s around ns) (propsText s ns).generated
  | [], _ => .nil
  | e :: _, h => by
    have he := (completeAll_cons h).1
    exact (made_props s around _ e he (by simpa using made_edits s around e he)).left

theorem made_props (s : Setting) (around : List Construct) (whole : Unit → Draft (List Char)) :
    ∀ n : Node, complete n = true → MadeAt (constructs s around n) (whole ()).generated →
    MadeAt (constructs s around n) (props s whole n).generated
  | .mk label span parts, h, hwhole => by
    obtain ⟨hparts, -, hall⟩ := complete_mk h
    have hoperand := made_operandText s around parts hall
    have hattributes := @made_attributes s around parts hall
    have hinner : ∀ e, parts = [e] → MadeAt (constructs s around e) (whole ()).generated →
        MadeAt (constructs s around e) (props s whole e).generated :=
      match parts with
      | [] | _ :: _ :: _ => by simp
      | [e] => by
        rintro e' ⟨⟩
        exact made_props s around whole e (completeAll_cons hall).1
    unfold props
    split
    · simpa [constructs] using hoperand
    · rename_i e
      rw [constructs_paren] at hwhole ⊢
      exact hinner e rfl hwhole
    · exact .nil
    · exact .nil
    · simpa [constructs] using hattributes hparts
    · simpa using hwhole

theorem made_attributes (s : Setting) (around : List Construct) : ∀ ns : List Node,
    completeAll ns = true → ∀ {span : Span}, hasParts .object span ns = true →
    MadeAt (constructsAll s around ns) (attributes s ns).generated
  | [], _, _, _ => .nil
  | .mk label span parts :: rest, h, object, hparts => by
    obtain ⟨hn, hrest⟩ := completeAll_cons h
    obtain ⟨-, -, hall⟩ := complete_mk hn
    have hwhole := made_edits s around (.mk label span parts) hn
    have hoperand := made_operandText s around parts hall
    have hvalue := made_valueText s around parts hall
    obtain ⟨hspread, hshape⟩ := hasParts_object_cons hparts
    have hmore := made_attributes s around rest hrest hshape
    simp only [attributes, constructsAll]
    split
    · split
      · simpa using hmore.right
      · simpa [constructs] using hvalue.append hmore
      · simpa using hwhole.append hmore
    · rename_i hother
      obtain ⟨last, rfl⟩ := hspread hother
      simpa [constructs] using hoperand.append hmore

theorem made_childrenText (s : Setting) (around : List Construct) : ∀ ns : List Node,
    completeAll ns = true → MadeAt (constructsAll s around ns) (childrenText s ns).generated
  | [], _ => .nil
  | _ :: children, h => (made_childTexts s around children (completeAll_cons h).2).right

theorem made_childTexts (s : Setting) (around : List Construct) : ∀ ns : List Node,
    completeAll ns = true → MadeAt (constructsAll s around ns) (childTexts s ns).generated
  | [], _ => .nil
  | .mk label span parts :: rest, h => by
    obtain ⟨hn, hrest⟩ := completeAll_cons h
    obtain ⟨-, -, hall⟩ := complete_mk hn
    have hwhole := made_edits s around (.mk label span parts) hn
    have hoperand := made_operandText s around parts hall
    have helement := made_element s around span parts hall
    have hposition := made_position s around
      (fun _ => do return s.spliced span (← edits s (.mk label span parts))) (.mk label span parts) hn
      (by simpa using hwhole)
    have hmore := made_childTexts s around rest hrest
    simp only [childTexts, constructsAll]
    split
    · simpa [constructs] using hoperand.append hmore
    · simpa using hmore.right
    · simpa using hwhole.append hmore
    · simpa using hwhole.append hmore
    · rw [constructs]
      rw [constructs] at hwhole
      generalize element? s span parts = element at helement ⊢
      generalize s.atElement? span parts = inside at helement hwhole ⊢
      cases helement with
      | some helement => simpa using helement.append hmore
      | none => simpa using hwhole.append hmore
    · cases htext : position? s _ (.mk label span parts) with
      | some text => simpa using (hposition text htext).append hmore
      | none => simpa using hwhole.append hmore

theorem made_effectEdits (s : Setting) (around : List Construct) : ∀ ns : List Node,
    completeAll ns = true → MadeAt (effectConstructs s around ns) (effectEdits s ns).generated
  | [], _ => .nil
  | [callee], h => by
    simpa [effectEdits, effectConstructs] using made_edits s around callee (completeAll_cons h).1
  | callee :: .mk label span parts :: rest, h => by
    obtain ⟨hcallee, hn, hrest⟩ := (completeAll_cons h).imp_right completeAll_cons
    obtain ⟨-, -, hall⟩ := complete_mk hn
    have hcallee := made_edits s around callee hcallee
    have hn := made_edits s around (.mk label span parts) hn
    have hrest := made_editsAll s around rest hrest
    cases hcallback : isCallback label with
    | false =>
      simpa [effectEdits, effectConstructs, hcallback] using (hcallee.append hn).append hrest
    | true =>
      let callback := Node.mk label span parts
      let own := s.peeking callback
      have hown : MadeAt [(own, around)] own.made := by simp [MadeAt]
      have hbody := made_bodyEdits (s.inside callback) (own :: around)
        (s.declarations (s.copies callback)) (label == .arrow true) parts hall
      have hargument := hown.append hbody
      rw [generated_effectEdits s hcallback]
      simp only [effectConstructs, hcallback, if_true]
      exact (hcallee.append hargument).append hrest

theorem made_bodyEdits (s : Setting) (around : List Construct) (declarations : List Char)
    (concise : Bool) : ∀ ns : List Node, completeAll ns = true →
    MadeAt (bodyConstructs s around ns) (bodyEdits s declarations concise ns).generated
  | [], _ => .nil
  | .mk label span parts :: rest, h => by
    obtain ⟨hn, hrest⟩ := completeAll_cons h
    obtain ⟨-, -, hall⟩ := complete_mk hn
    rcases body_or_skip label rest with ⟨directives, rfl, rfl⟩ | hother
    · rw [generated_bodyEdits]
      exact made_editsAll s around parts hall
    · rw [bodyConstructs_skip hother, bodyEdits_skip hother]
      exact made_bodyEdits s around declarations concise rest hrest

end

/-! ### The names of a unit -/

namespace Transform

/-- The names made for a unit. Those of its anonymous functions occur nowhere in the unit as given; none
is made twice, and none is the name of a helper. Every other name belongs to a construct of the tree and
occurs nowhere in the text of the construct. It is no helper and no anonymous function, and is made once
among the names of the construct and of those around it, which are the ones that the construct stands
in. -/
theorem names_hygienic (options : Options) (source : List Char) (frame : AliasFrame)
    (program : Program) :
    let unit := named options source
    let s := setting options frame unit.1.text unit.2
    let helpers := [options.adapterName, options.peekName]
    let found := constructsAll s [] program.statements
    (unit.1.names.Nodup ∧ ∀ name ∈ unit.1.names, ¬ name.toList <:+: source ∧ name ∉ helpers) ∧
      (∀ p ∈ found, p.1.Apart unit.1.text (unit.1.names ++ helpers) p.2) ∧
      (Sound unit.1.text program →
        Nested found ∧ MadeAt found (editsAll s program.statements).generated) := by
  intro unit s helpers found
  have hhelpers : (Names.ofReserved helpers).taken = helpers := by simp [Names.ofReserved, Names.taken]
  have hgiven : Names.Handed source (.ofReserved helpers) unit.1.names unit.2 :=
    AnonymousFunction.handed_namesFor source options.anonFnName _ _ (List.cons_ne_nil _ _)
  have hknown : unit.2.Remembers (unit.1.names ++ helpers) [] := by
    refine ⟨hgiven.scopes, fun name hname => ?_, List.forall_mem_nil _⟩
    rw [hgiven.taken, hhelpers]
    exact List.mem_append.1 hname
  refine ⟨⟨hgiven.nodup, fun name hname => hhelpers ▸ hgiven.apart name hname⟩,
    constructsAll_apart s [] hknown program.statements, fun h => ⟨?_, ?_⟩⟩
  · obtain ⟨stop, hplaced, -⟩ := h.placed
    exact nested_constructsAll s [] program.statements hplaced (List.forall_mem_nil _)
  · exact made_editsAll s [] program.statements h.complete

/-- The names of copies in a unit, and what they are copied from, callback by callback. -/
def copiesOf (source : String) : List (List Generated) :=
  let unit := named {} source.toList
  match Program.parse? Dialect.plain unit.1.text with
  | none => []
  | some program =>
      let s := setting {} (addAliases {} program .empty) unit.1.text unit.2
      (constructsAll s [] program.statements).map (·.1.made)

/-- The copy of a copy has a name of its own. -/
example : copiesOf "import\x7buseEffect\x7dfrom\"react\";useEffect(()=>useEffect(()=>x))" =
    [[.copy "x_" "x"], [.copy "x__" "x_"]] := by
  decide +kernel

/-- A name that the unit spells with an escape is not found in its text. -/
example : copiesOf "import\x7buseEffect\x7dfrom\"react\";useEffect(()=>x+x\\u005f)" =
    [[.copy "x_" "x", .copy "x__" "x_"]] := by
  decide +kernel

end Transform

end FineGrain
