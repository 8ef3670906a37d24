import FineGrain.Proofs.Rewrite.Gathering
import FineGrain.Proofs.Rewrite.Rendering
/-!
The bindings that are noted on the way to a rewrite are those that its plan holds, each once and with
the helper of its kind. Every function literal must have a body for that: the copies of a mere
signature are noted and made nowhere.
-/

namespace FineGrain

open Grammar Rewrite

namespace Options

def helper (options : Options) : Generated → String
  | .copy _ _ => options.peekName
  | .tag _ => options.adapterName

/-- Some bindings, with the helpers that they call. -/
def calls (options : Options) (made : List Generated) : List (Generated × String) :=
  made.map fun binding => (binding, options.helper binding)

@[simp] theorem calls_nil (options : Options) : options.calls [] = [] := rfl

@[simp] theorem calls_cons (options : Options) (binding : Generated) (made : List Generated) :
    options.calls (binding :: made) = (binding, options.helper binding) :: options.calls made := rfl

@[simp] theorem calls_append (options : Options) (made more : List Generated) :
    options.calls (made ++ more) = options.calls made ++ options.calls more := List.map_append

end Options

@[simp] theorem Draft.generated_note (made : List Generated) : (Draft.note made).generated = made := rfl

/-- The bindings that a piece holds, with the helpers that they call. -/
def Piece.bindings : Piece → List (Generated × String)
  | binds binding helper => [(binding, helper)]
  | _ => []

abbrev bindings (plan : List Piece) : List (Generated × String) := gathered Piece.bindings plan

abbrev bound (sites : List Site) : List (Generated × String) := gatheredAll Piece.bindings sites

instance : Sparing Piece.bindings := ⟨fun _ => rfl, fun _ => rfl⟩

/-- Whether the parts of a function literal end in a body. -/
def hasBody : List Node → Bool
  | [] => false
  | [.mk (.body _) _ _] => true
  | _ :: rest => hasBody rest

mutual

/-- Whether every node of a tree has the parts that its label promises, and every function literal a
body. -/
def complete : Node → Bool
  | .mk label span parts =>
      hasParts label span parts && (!isCallback label || hasBody parts) && completeAll parts

def completeAll : List Node → Bool
  | [] => true
  | n :: rest => complete n && completeAll rest

end

variable {s : Setting} {label : Label} {span : Span} {n : Node} {parts rest : List Node}

theorem complete_mk (h : complete (.mk label span parts) = true) :
    hasParts label span parts = true ∧ (isCallback label = true → hasBody parts = true) ∧
      completeAll parts = true := by
  simp only [complete, Bool.and_eq_true, Bool.or_eq_true, Bool.not_eq_true'] at h
  obtain ⟨⟨hparts, hbody⟩, hall⟩ := h
  exact ⟨hparts, fun hcallback => hbody.resolve_left (by simp [hcallback]), hall⟩

theorem completeAll_cons (h : completeAll (n :: rest) = true) :
    complete n = true ∧ completeAll rest = true := by
  simpa [completeAll] using h

theorem bindings_tagPlan {tag : Node} {name : String} : bindings (tagPlan s tag name) = [] := by
  unfold tagPlan
  split <;> simp [Piece.bindings]

theorem calls_copies (options : Options) (copies : List Snapshot) :
    options.calls (copies.map fun c => .copy c.copy c.source) =
      copies.flatMap fun c => [(.copy c.copy c.source, options.peekName)] := by
  rw [← List.map_eq_flatMap, Options.calls, List.map_map]
  rfl

/-- The bindings that a callback notes: its copies, and then what its body does. -/
def Setting.callbackDraft (s : Setting) : Node → Draft (List Edit)
  | .mk label span parts => do
      let callback := Node.mk label span parts
      Draft.note ((s.copies callback).map fun c => .copy c.copy c.source)
      bodyEdits (s.inside callback) (s.declarations (s.copies callback)) (label == .arrow true) parts

theorem generated_effectEdits (s : Setting) {callee : Node} {label : Label} {span : Span}
    {parts rest : List Node} (h : isCallback label = true) :
    (effectEdits s (callee :: .mk label span parts :: rest)).generated =
      (edits s callee).generated ++ (s.callbackDraft (.mk label span parts)).generated ++
        (editsAll s rest).generated := by
  simp only [effectEdits, h, if_true, Draft.generated_bind, Draft.generated_pure, List.append_nil,
    List.nil_append, List.append_assoc]
  simp only [Setting.callbackDraft, Draft.generated_bind, List.append_assoc]
  rfl

theorem generated_bodyEdits {declarations : List Char} {concise : Bool} {directives : List Span} :
    (bodyEdits s declarations concise [.mk (.body directives) span parts]).generated =
      (editsAll s parts).generated := by
  simp only [bodyEdits, Draft.generated_bind]
  split
  · simp
  · split <;> simp

theorem hasBody_skip (h : ∀ directives, label = .body directives → rest ≠ []) :
    hasBody (.mk label span parts :: rest) = hasBody rest := by
  rw [hasBody]
  rintro directives _ _ ⟨⟩ rfl
  exact h directives rfl rfl

/-- The bindings noted in a draft are those of a list, each with the helper of its kind. -/
def Notes (options : Options) (d : Draft α) (held : List (Generated × String)) : Prop :=
  held.Perm (options.calls d.generated)

theorem shorthand_notes {form : PropertyForm} {computed : Bool} (hform : form = .shorthand)
    (hparts : hasParts (.property form computed) span parts = true) :
    ∃ o, shorthand? s parts = some o ∧ (editsAll s parts).generated = [] := by
  subst hform
  simp only [hasParts] at hparts
  split at hparts
  · exact ⟨_, rfl, by simp [editsAll, edits]⟩
  · cases hparts

mutual

theorem notes_edits (s : Setting) : ∀ n : Node, complete n = true →
    Notes s.options (edits s n) (bound (sites s n))
  | .mk label span parts, h => by
    obtain ⟨hparts, -, hall⟩ := complete_mk h
    have hplain := notes_editsAll s parts hall
    have helement := notes_element s span parts hall
    have heffect := notes_effectEdits s parts hall
    have hcontainer := notes_containerEdits s parts hall
    cases label with
    | call =>
      rw [edits, sites]
      generalize element? s span parts = element at helement ⊢
      generalize elementPlan? s span parts = plan at helement ⊢
      cases helement with
      | some helement => simpa [Notes] using helement
      | none =>
        dsimp only
        split
        · exact heffect
        · exact hplain
    | container =>
      rw [edits, sites]
      split
      · exact hcontainer
      · exact hplain
    | reference name => simp [Notes, edits, sites, Piece.bindings]
    | property form computed =>
      cases form with
      | shorthand =>
        obtain ⟨o, ho, hnone⟩ := shorthand_notes (s := s) rfl hparts
        rw [edits, sites]
        cases shorthandRename? s parts <;> simp [Notes, ho, hnone, Piece.bindings]
      | _ => exact hplain
    | _ => exact hplain

theorem notes_editsAll (s : Setting) : ∀ ns : List Node, completeAll ns = true →
    Notes s.options (editsAll s ns) (bound (sitesAll s ns))
  | [], _ => .refl _
  | n :: rest, h => by
    obtain ⟨hn, hrest⟩ := completeAll_cons h
    simpa [Notes, editsAll, sitesAll] using (notes_edits s n hn).append (notes_editsAll s rest hrest)

theorem notes_containerEdits (s : Setting) : ∀ ns : List Node, completeAll ns = true →
    Notes s.options (containerEdits s ns) (bound (containerSites s ns))
  | [], _ => .refl _
  | e :: rest, h => by
    obtain ⟨he, hrest⟩ := completeAll_cons h
    have hwhole := notes_edits s e he
    have hmore := notes_editsAll s rest hrest
    have hposition := notes_position s (fun _ => do return s.spliced e.span (← edits s e))
      (spanPlan e.span (sites s e)) e he (by simpa [Notes] using hwhole)
    simp only [containerEdits, containerSites]
    generalize position? s _ e = text at hposition ⊢
    generalize positionPlan? s _ e = plan at hposition ⊢
    cases hposition with
    | some hposition => simpa [Notes] using hposition.append hmore
    | none => simpa [Notes] using hwhole.append hmore

theorem notes_position (s : Setting) (whole : Unit → Draft (List Char)) (plan : List Piece) :
    ∀ n : Node, complete n = true → Notes s.options (whole ()) (bindings plan) →
    Option.Rel (fun d plan => Notes s.options d (bindings plan)) (position? s whole n)
      (positionPlan? s plan n)
  | .mk label span parts, h, hwhole => by
    obtain ⟨-, -, hall⟩ := complete_mk h
    have hproperties := notes_propertyTexts s parts hall
    have hinner : ∀ e, parts = [e] → Option.Rel (fun d plan => Notes s.options d (bindings plan))
        (position? s whole e) (positionPlan? s plan e) :=
      match parts with
      | [] | _ :: _ :: _ => by simp
      | [e] => by
        rintro e' ⟨⟩
        exact notes_position s whole plan e (completeAll_cons hall).1 hwhole
    unfold position? positionPlan?
    split
    all_goals try exact .none
    · rename_i e
      exact hinner e rfl
    · exact .some (by simpa [Notes] using hproperties)
    · exact .some (by simpa [Notes, Piece.bindings] using hwhole)
    · simpa [Notes] using hwhole

theorem notes_propertyTexts (s : Setting) : ∀ ns : List Node, completeAll ns = true →
    Notes s.options (propertyTexts s ns) ((propertyPlans s ns).flatMap bindings)
  | [], _ => .refl _
  | .mk label span parts :: rest, h => by
    obtain ⟨hn, hrest⟩ := completeAll_cons h
    obtain ⟨-, -, hall⟩ := complete_mk hn
    have hwhole := notes_edits s (.mk label span parts) hn
    have hoperand := notes_operandText s parts hall
    have hvalue := notes_valueText s parts hall
    have hmore := notes_propertyTexts s rest hrest
    simp only [propertyTexts, propertyPlans, List.flatMap_cons]
    split
    · simpa [Notes, Piece.bindings] using hoperand.append hmore
    · simpa [Notes, Piece.bindings] using hvalue.append hmore
    · simpa [Notes] using hwhole.append hmore

theorem notes_valueText (s : Setting) : ∀ ns : List Node, completeAll ns = true →
    Notes s.options (valueText s ns) (bindings (valuePlan s ns))
  | [], _ => .refl _
  | [_], _ => .refl _
  | _ :: e :: more, h => by
    obtain ⟨he, -⟩ := completeAll_cons (completeAll_cons h).2
    have hwhole := notes_edits s e he
    have hposition := notes_position s (fun _ => do return s.spliced e.span (← edits s e))
      (spanPlan e.span (sites s e)) e he (by simpa [Notes] using hwhole)
    simp only [valueText, valuePlan]
    generalize position? s _ e = text at hposition ⊢
    generalize positionPlan? s _ e = plan at hposition ⊢
    cases hposition with
    | some hposition => simpa [Notes, Piece.bindings] using hposition
    | none => simpa [Notes, Piece.bindings] using hwhole

theorem notes_operandText (s : Setting) : ∀ ns : List Node, completeAll ns = true →
    Notes s.options (operandText s ns) (bindings (operandPlan s ns))
  | [], _ => .refl _
  | e :: more, h => by
    have he := notes_edits s e (completeAll_cons h).1
    simpa [Notes, operandText, operandPlan, Piece.bindings] using he

theorem notes_element (s : Setting) (call : Span) : ∀ ns : List Node, completeAll ns = true →
    Option.Rel (fun d plan => Notes s.options d (bindings plan.1)) (element? s call ns)
      (elementPlan? s call ns)
  | [], _ => .none
  | [_], _ => .none
  | callee :: tag :: rest, h => by
    obtain ⟨-, htag, hrest⟩ := (completeAll_cons h).imp_right completeAll_cons
    have hprops (names : Names) := notes_propsText { s with names := names } rest hrest
    have hchildren (names : Names) := notes_childrenText { s with names := names } rest hrest
    have htag (names : Names) := notes_edits { s with names := names } tag htag
    rcases s.factory_cases callee tag with hfactory | ⟨hfactory, last, hlast⟩ | ⟨hfactory, hother⟩
    · simp [element?, elementPlan?, hfactory]
    · simp [element?, elementPlan?, hfactory, hlast]
    · simp only [element?, elementPlan?, hfactory]
      refine .some ?_
      cases hkind : s.tag tag with
      | name name =>
        have hprops := hprops s.names
        have hchildren := hchildren s.names
        simpa [Notes, Piece.bindings, bindings_tagPlan, gathered_children] using
          hprops.append hchildren
      | fragment =>
        simpa [Notes, Piece.bindings] using hchildren s.names
      | dynamic =>
        dsimp only
        generalize s.names.pushScope.allocate s.options.tempTagName (s.slice call) = allocated
        -- the binding stands in front, and is noted behind all that the element is made of
        have hparts := ((htag allocated.2).append (hprops allocated.2)).append (hchildren allocated.2)
        simpa [Notes, Piece.bindings, Options.helper] using
          (hparts.cons (Generated.tag allocated.1, s.options.adapterName)).trans
            (List.perm_append_singleton _ _).symm

theorem notes_propsText (s : Setting) : ∀ ns : List Node, completeAll ns = true →
    Notes s.options (propsText s ns) (bindings (propsPlan s ns))
  | [], _ => .refl _
  | e :: _, h => by
    have he := (completeAll_cons h).1
    exact notes_props s _ _ e he (by simpa [Notes] using notes_edits s e he)

theorem notes_props (s : Setting) (whole : Unit → Draft (List Char)) (plan : List Piece) :
    ∀ n : Node, complete n = true → Notes s.options (whole ()) (bindings plan) →
    Notes s.options (props s whole n) (bindings (attributePlan s plan n))
  | .mk label span parts, h, hwhole => by
    obtain ⟨hparts, -, hall⟩ := complete_mk h
    have hoperand := notes_operandText s parts hall
    have hattributes := @notes_attributes s parts hall
    have hinner : ∀ e, parts = [e] →
        Notes s.options (props s whole e) (bindings (attributePlan s plan e)) :=
      match parts with
      | [] | _ :: _ :: _ => by simp
      | [e] => by
        rintro e' ⟨⟩
        exact notes_props s whole plan e (completeAll_cons hall).1 hwhole
    unfold props attributePlan
    split
    · simpa [Notes] using hoperand
    · rename_i e
      exact hinner e rfl
    · simp [Notes, Piece.bindings]
    · simp [Notes, Piece.bindings]
    · exact hattributes hparts
    · simpa [Notes] using hwhole

theorem notes_attributes (s : Setting) : ∀ ns : List Node, completeAll ns = true →
    ∀ {span : Span}, hasParts .object span ns = true →
    Notes s.options (attributes s ns) (bindings (attributesPlan s ns))
  | [], _, _, _ => .refl _
  | .mk label span parts :: rest, h, object, hparts => by
    obtain ⟨hn, hrest⟩ := completeAll_cons h
    obtain ⟨-, -, hall⟩ := complete_mk hn
    have hwhole := notes_edits s (.mk label span parts) hn
    have hoperand := notes_operandText s parts hall
    have hvalue := notes_valueText s parts hall
    obtain ⟨hspread, hshape⟩ := hasParts_object_cons hparts
    have hmore := notes_attributes s rest hrest hshape
    simp only [attributes, attributesPlan]
    split
    · rename_i form computed
      cases hname : Attribute.name? form computed parts with
      | none =>
        simp only [hname]
        simpa [Notes] using hwhole.append hmore
      | some name =>
        have hquoted := quotedPlan_rendered (s := s) parts
        cases hplan : quotedPlan? s parts with
        | some plan =>
          rw [hplan] at hquoted
          simp only [hname, ← hquoted]
          simpa [Notes, Piece.bindings, gathered_quotedPlan hplan] using hmore
        | none =>
          rw [hplan] at hquoted
          simp only [hname, ← hquoted]
          simpa [Notes, Piece.bindings] using hvalue.append hmore
    · rename_i hother
      obtain ⟨last, rfl⟩ := hspread hother
      simpa [Notes] using hoperand.append hmore

theorem notes_childrenText (s : Setting) : ∀ ns : List Node, completeAll ns = true →
    Notes s.options (childrenText s ns) (bindings (childrenPlan s ns))
  | [], _ => .refl _
  | _ :: children, h => notes_childTexts s children (completeAll_cons h).2

theorem notes_childTexts (s : Setting) : ∀ ns : List Node, completeAll ns = true →
    Notes s.options (childTexts s ns) (bindings (childPlans s ns))
  | [], _ => .refl _
  | .mk label span parts :: rest, h => by
    obtain ⟨hn, hrest⟩ := completeAll_cons h
    obtain ⟨-, -, hall⟩ := complete_mk hn
    have hwhole := notes_edits s (.mk label span parts) hn
    have hoperand := notes_operandText s parts hall
    have helement := notes_element s span parts hall
    have hposition := notes_position s
      (fun _ => do return s.spliced span (← edits s (.mk label span parts)))
      (spanPlan span (sites s (.mk label span parts))) (.mk label span parts) hn
      (by simpa [Notes] using hwhole)
    have hmore := notes_childTexts s rest hrest
    simp only [childTexts, childPlans]
    split
    · simpa [Notes] using hoperand.append hmore
    · rename_i value
      cases hplain : Attribute.isPlainText value (s.slice span) <;>
        simpa [Notes, Piece.bindings, hplain, Sparing.source] using hmore
    · simpa [Notes] using hwhole.append hmore
    · simpa [Notes] using hwhole.append hmore
    · generalize element? s span parts = element at helement ⊢
      generalize elementPlan? s span parts = plan at helement ⊢
      cases helement with
      | @some element plan helement =>
        dsimp only
        split <;> simpa [Notes] using helement.append hmore
      | none => simpa [Notes] using hwhole.append hmore
    · generalize position? s _ (.mk label span parts) = text at hposition ⊢
      generalize positionPlan? s _ (.mk label span parts) = plan at hposition ⊢
      cases hposition with
      | some hposition => simpa [Notes] using hposition.append hmore
      | none => simpa [Notes] using hwhole.append hmore

theorem notes_effectEdits (s : Setting) : ∀ ns : List Node, completeAll ns = true →
    Notes s.options (effectEdits s ns) (bound (effectSites s ns))
  | [], _ => .refl _
  | [callee], h => by
    simpa [Notes, effectEdits, effectSites] using notes_edits s callee (completeAll_cons h).1
  | callee :: .mk label span parts :: rest, h => by
    obtain ⟨hcallee, hn, hrest⟩ := (completeAll_cons h).imp_right completeAll_cons
    obtain ⟨-, hbody, hall⟩ := complete_mk hn
    have hcallee := notes_edits s callee hcallee
    have hn := notes_edits s (.mk label span parts) hn
    have hrest := notes_editsAll s rest hrest
    cases hcallback : isCallback label with
    | false =>
      simpa [Notes, effectEdits, effectSites, hcallback] using (hcallee.append hn).append hrest
    | true =>
      have hargument : Notes s.options (s.callbackDraft (.mk label span parts))
          (bindings (callbackPlan s (.mk label span parts))) :=
        notes_callback s (s.inside (.mk label span parts)).renames
          (s.inside (.mk label span parts)).names _ parts hall (hbody hcallback)
      rw [effectSites_callback s hcallback, Notes, generated_effectEdits s hcallback]
      simpa using (hcallee.append hargument).append hrest

theorem notes_callback (s : Setting) (renames : List (Nat × String)) (names : Names)
    (copies : List Snapshot) : ∀ ns : List Node, completeAll ns = true → hasBody ns = true →
    ∀ {concise : Bool} {callback : Span} {front : List Occurrence},
    Notes s.options (do
        Draft.note (copies.map fun c => .copy c.copy c.source)
        bodyEdits { s with names := names, renames := renames } (s.declarations copies) concise ns)
      (bindings (bodyPlan s { s with names := names, renames := renames } copies concise callback
        front ns))
  | [], _, hbody, _, _, _ => nomatch hbody
  | .mk label span parts :: rest, h, hbody, concise, callback, front => by
    obtain ⟨hn, hrest⟩ := completeAll_cons h
    obtain ⟨-, -, hall⟩ := complete_mk hn
    have hparts := notes_editsAll { s with names := names, renames := renames } parts hall
    rcases body_or_skip label rest with ⟨directives, rfl, rfl⟩ | hother
    · rw [bodyPlan, Notes, Draft.generated_bind, generated_bodyEdits]
      simpa [Piece.bindings, calls_copies] using List.Perm.append_left _ hparts
    · rw [hasBody_skip hother] at hbody
      rw [bodyEdits_skip hother, bodyPlan_skip hother]
      exact notes_callback s renames names copies rest hrest hbody

end

end FineGrain
