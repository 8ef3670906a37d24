import FineGrain.Proofs.Rewrite.Placement
import FineGrain.Proofs.Rewrite.Plan
/-!
The text that a rewrite answers is the text of its plan, for every tree that is placed.
-/

namespace FineGrain

open Grammar Rewrite

variable {text : List Char} {s : Setting} {p q : List Piece} {piece : Piece}

def Site.edit (text : List Char) (site : Site) : Edit := ⟨site.span, render text site.plan⟩

def editsOf (text : List Char) (sites : List Site) : List Edit := sites.map (Site.edit text)

@[simp] theorem editsOf_nil : editsOf text [] = [] := rfl

@[simp] theorem editsOf_cons {site : Site} {rest : List Site} :
    editsOf text (site :: rest) = ⟨site.span, render text site.plan⟩ :: editsOf text rest := rfl

@[simp] theorem editsOf_append {xs ys : List Site} :
    editsOf text (xs ++ ys) = editsOf text xs ++ editsOf text ys := by
  simp [editsOf]

@[simp] theorem render_nil : render text [] = [] := rfl

@[simp] theorem render_cons : render text (piece :: p) = piece.render text ++ render text p := by
  simp [render]

@[simp] theorem render_append : render text (p ++ q) = render text p ++ render text q := by
  simp [render]

@[simp] theorem render_fill {stop a : Nat} {xs : List Site} :
    render text (fill stop a xs) = weave text stop a (editsOf text xs) := by
  induction xs generalizing a with
  | nil => simp [fill, weave, Piece.render]
  | cons site rest ih => simp [fill, weave, Piece.render, ih]

@[simp] theorem render_over {xs : List Site} {span : Span} :
    render text (spanPlan span xs) = weave text span.stop span.start (editsOf text xs) := render_fill

@[simp] theorem render_bracedPlan : render text (bracedPlan p) = braced (render text p) := by
  simp [bracedPlan, braced, Piece.render]

@[simp] theorem render_deferredPlan : render text (deferredPlan p) = deferred (render text p) := by
  unfold deferredPlan deferred
  generalize "(() => ".toList = front
  generalize ")()".toList = back
  simp [Piece.render]

@[simp] theorem render_spreadPlan :
    render text (spreadPlan p) = spreadAttribute (render text p) := by
  unfold spreadPlan spreadAttribute
  generalize " \x7b...".toList = front
  simp [Piece.render]

@[simp] theorem render_assignedPlan {name : String} :
    render text (assignedPlan name p) = assignedAttribute name (render text p) := by
  simp [assignedPlan, assignedAttribute, Piece.render]

@[simp] theorem render_taggedPlan {front attributes : List Piece} {tag : String}
    {children : Option (List Piece)} (hfront : render text front = tag.toList) :
    render text (taggedPlan front tag attributes children) =
      tagged tag (render text attributes) (children.map (render text)) := by
  cases children <;> simp [taggedPlan, tagged, Piece.render, hfront]

@[simp] theorem render_adaptedPlan {adapter temp : String} {tag attributes children : List Piece} :
    render text (adaptedPlan adapter temp tag attributes children) =
      adapted adapter temp (render text tag) (render text attributes) (render text children) := by
  have htagged : render text (taggedPlan [.made temp.toList] temp attributes (some children)) =
      tagged temp (render text attributes) (some (render text children)) :=
    render_taggedPlan (by simp [Piece.render])
  have hfront : "(() => \x7b const ".toList = "(() => \x7b ".toList ++ "const ".toList := by simp
  have hcall : (Generated.tag temp).text adapter =
      "const ".toList ++ temp.toList ++ " = ".toList ++ adapter.toList ++ ['('] := by
    simp [Generated.text]
  unfold adaptedPlan adapted
  rw [hfront]
  generalize "(() => \x7b ".toList = front
  generalize "); return ".toList = middle
  generalize "; \x7d)()".toList = back
  simp [Piece.render, hcall, htagged]

theorem render_intercalate (ps : List (List Piece)) :
    render text (q.intercalate ps) = (render text q).intercalate (ps.map (render text)) := by
  induction ps with
  | nil => rfl
  | cons p ps ih =>
    cases ps with
    | nil => simp [List.intercalate]
    | cons p' ps =>
      simp only [List.intercalate, List.intersperse, List.flatten_cons, List.map_cons,
        render_append] at ih ⊢
      rw [ih]

@[simp] theorem render_objectPlan (ps : List (List Piece)) :
    render text (objectPlan ps) = objectLiteral (ps.map (render text)) := by
  cases ps with
  | nil => simp [objectPlan, objectLiteral, Piece.render]
  | cons p ps => simp [objectPlan, objectLiteral, Piece.render, render_intercalate]

theorem render_tagPlan {tag : Node} {name : String} (h : s.tag tag = .name name) :
    render text (tagPlan s tag name) = name.toList := by
  unfold tagPlan
  split
  · rename_i own span parts hinner
    simp only [Setting.tag, hinner] at h
    split at h
    · cases h
    · split at h
      · cases h
      · obtain rfl := Tag.name.inj h
        simp [Piece.render, Setting.occurrence]
  · simp [Piece.render]

theorem quotedPlan_rendered (parts : List Node) :
    (quotedPlan? s parts).map (render s.text) = quotedValue? s parts := by
  unfold quotedPlan? quotedValue?
  split
  · rename_i span _ _
    cases hplain : Attribute.isPlainQuoted (Text.slice s.text span) <;>
      simp [hplain, Piece.render, Setting.slice]
  · simp

/-! ### Callbacks -/

theorem render_declarationPlan (copies : List Snapshot) :
    render text (declarationPlan s copies) = s.declarations copies := by
  have hspace : " ".toList = [' '] := by simp
  simp only [declarationPlan, render_intercalate, Setting.declarations, List.map_map,
    String.toList_intercalate, hspace]
  simp [Function.comp_def, Piece.render, Generated.text]

theorem declarations_isEmpty (copies : List Snapshot) :
    (s.declarations copies).isEmpty = copies.isEmpty := by
  cases copies with
  | nil => rfl
  | cons c rest =>
    rw [← show render [] (declarationPlan s (c :: rest)) = _ from render_declarationPlan _,
      declarationPlan]
    cases rest <;> simp [List.intercalate, Piece.render, Generated.text]

def Setting.callbackText (s : Setting) : Node → List Char
  | .mk label span parts =>
      let callback := Node.mk label span parts
      s.spliced span (bodyEdits (s.inside callback) (s.declarations (s.copies callback))
        (label == .arrow true) parts).value

def callbackPlan (s : Setting) : Node → List Piece
  | .mk label span parts =>
      let callback := Node.mk label span parts
      bodyPlan s (s.inside callback) (s.copies callback) (label == .arrow true)
        span [] parts

theorem bodyEdits_body (s : Setting) {declarations : List Char} {concise : Bool}
    {directives : List Span} {span : Span} {parts : List Node} :
    (bodyEdits s declarations concise [.mk (.body directives) span parts]).value =
      if declarations.isEmpty then (editsAll s parts).value
      else if concise then
        (editsAll s parts).value ++
          [⟨Span.point span.start, "\x7b ".toList ++ declarations ++ " return ".toList⟩,
            ⟨Span.point span.stop, "; \x7d".toList⟩]
      else (editsAll s parts).value ++ [⟨Span.point (s.bodyTop directives span).1,
        (s.bodyTop directives span).2 ++ declarations⟩] := by
  simp only [bodyEdits, Draft.value_bind]
  split
  · rfl
  · split <;> rfl

theorem body_or_skip (label : Label) (rest : List Node) :
    (∃ directives, label = .body directives ∧ rest = []) ∨
      ∀ directives, label = .body directives → rest ≠ [] := by
  by_cases h : ∃ directives, label = .body directives ∧ rest = []
  · exact .inl h
  · exact .inr fun directives hlabel hrest => h ⟨directives, hlabel, hrest⟩

theorem bodyEdits_skip {declarations : List Char} {concise : Bool} {label : Label} {span : Span}
    {parts rest : List Node} (h : ∀ directives, label = .body directives → rest ≠ []) :
    bodyEdits s declarations concise (.mk label span parts :: rest) =
      bodyEdits s declarations concise rest := by
  rw [bodyEdits]
  rintro directives _ _ ⟨⟩ rfl
  exact h directives rfl rfl

theorem bodyPlan_skip {inside : Setting} {copies : List Snapshot} {concise : Bool}
    {callback : Span} {front : List Occurrence} {label : Label} {span : Span}
    {parts rest : List Node} (h : ∀ directives, label = .body directives → rest ≠ []) :
    bodyPlan s inside copies concise callback front (.mk label span parts :: rest) =
      bodyPlan s inside copies concise callback
        (front ++ occurrences s (.mk label span parts)) rest := by
  rw [bodyPlan]
  rintro directives _ _ ⟨⟩ rfl
  exact h directives rfl rfl

theorem effectEdits_callback (s : Setting) {callee : Node} {label : Label} {span : Span}
    {parts rest : List Node} (h : isCallback label = true) :
    (effectEdits s (callee :: .mk label span parts :: rest)).value =
      (edits s callee).value ++ [⟨span, s.callbackText (.mk label span parts)⟩] ++
        (editsAll s rest).value := by
  simp only [effectEdits, h]
  rfl

theorem effectSites_callback (s : Setting) {callee : Node} {label : Label} {span : Span}
    {parts rest : List Node} (h : isCallback label = true) :
    effectSites s (callee :: .mk label span parts :: rest) =
      sites s callee ++ [⟨span, callbackPlan s (.mk label span parts)⟩] ++ sitesAll s rest := by
  simp only [effectSites, h]
  rfl

theorem isSilent_callback {label : Label} {span : Span} {parts : List Node}
    (h : isCallback label = true) : isSilent (.mk label span parts) = false := by
  unfold isCallback at h
  split at h
  · rfl
  · rfl
  · cases h

theorem copied_rendered {parts : List Node} {a d : Nat} {concise : Bool} {copies : List Snapshot}
    {directives : List Span} {callback span : Span} {front : List Occurrence} {es : List Edit}
    {xs : List Site}
    (hbody : PlacedBody s.text span parts a (bodyFront s.text concise directives span) d)
    (hlaid : Laid s.text d (bodyFront s.text concise directives span) es (editsOf s.text xs))
    (hstart : callback.start ≤ span.start) (hstop : span.stop ≤ callback.stop)
    (hcallback : Text.covers s.text callback = true) :
    s.spliced callback
        (if (s.declarations copies).isEmpty then es
        else if concise then
          es ++ [⟨Span.point span.start, "\x7b ".toList ++ s.declarations copies ++ " return ".toList⟩,
            ⟨Span.point span.stop, "; \x7d".toList⟩]
        else es ++ [⟨Span.point (s.bodyTop directives span).1,
          (s.bodyTop directives span).2 ++ s.declarations copies⟩]) =
      render s.text (.leaked ⟨callback.start, span.start⟩ front ::
        fill callback.stop span.start
          (copiedSites s copies concise directives span xs)) := by
  obtain ⟨-, hfirst, hlast⟩ := Text.covers_iff.1 hcallback
  obtain ⟨hsolid, hcovers⟩ := solid_iff.1 hbody.solid
  obtain ⟨-, hbegin, hend⟩ := Text.covers_iff.1 hcovers
  have hinside := hlaid.mono hbody.above hbody.inside
  rw [render_cons, render_fill]
  unfold copiedSites
  rw [declarations_isEmpty]
  -- Without copies the body stays as it is; a concise one is wrapped, and a block gets the copies
  -- put in at its top.
  split
  · have hwhole := hinside.mono hstart hstop
    calc s.spliced callback es
        = weave s.text callback.stop callback.start (editsOf s.text xs) :=
          EditList.spliceIn_laid hwhole hfirst hlast
      _ = _ := (slice_weave (hinside.mono (Nat.le_refl _) hstop).sites_inOrder hstart hfirst
          hbegin hlast).symm
  · split
    · rename_i hconcise
      subst hconcise
      generalize "\x7b ".toList = brace
      generalize " return ".toList = answer
      generalize "; \x7d".toList = closing
      have hwrapped := EditList.spliceIn_wrap (t := brace ++ s.declarations copies ++ answer)
        (u := closing) hinside hstart hstop hfirst hbegin hend hlast
      simpa [Setting.spliced, weave, weave_append, Span.point, Piece.render,
        render_declarationPlan, Text.slice_self hbegin] using hwrapped
    · rename_i hconcise
      obtain rfl := Bool.eq_false_iff.2 hconcise
      have htop : bodyFront s.text false directives span = (s.bodyTop directives span).1 := rfl
      rw [htop] at hlaid
      have habove : span.start ≤ (s.bodyTop directives span).1 := hbody.above
      have hboundary : Text.isBoundary s.text (s.bodyTop directives span).1 = true := hbody.boundary
      have hinserted := EditList.spliceIn_insert
        (t := (s.bodyTop directives span).2 ++ s.declarations copies) hlaid
        (Nat.le_trans hstart habove) (Nat.le_trans hbody.inside hstop) hfirst hboundary hlast
      rw [← Text.slice_append hfirst hbegin hboundary hstart habove] at hinserted
      simpa [Setting.spliced, weave, Span.point, Piece.render, render_declarationPlan] using
        hinserted

/-! ### Trees -/

theorem Laid.single {span : Span} {t : List Char} (h : solid text span = true) :
    Laid text span.stop span.start [⟨span, t⟩] [⟨span, t⟩] :=
  .edit (Nat.le_refl _) (solid_iff.1 h).1 (solid_iff.1 h).2 (.nil (Nat.le_refl _))

theorem Laid.unchanged {span : Span} {t : List Char} (h : solid text span = true)
    (ht : Text.slice text span = t) : Laid text span.stop span.start [] [⟨span, t⟩] :=
  .same (Nat.le_refl _) (solid_iff.1 h).1 (solid_iff.1 h).2 ht (.nil (Nat.le_refl _))

/-- The edits of a node are those of its sites that change anything, and its text with the edits
made is the text of its plan. -/
structure Rendered (s : Setting) (n : Node) (a b : Nat) : Prop where
  laid : Laid s.text b a (edits s n).value (editsOf s.text (sites s n))
  whole : s.spliced n.span (edits s n).value = render s.text (spanPlan n.span (sites s n))

theorem spliced_eq_render {span : Span} {es : List Edit} {xs : List Site}
    (h : Laid s.text span.stop span.start es (editsOf s.text xs))
    (hspan : Text.covers s.text span = true) :
    s.spliced span es = render s.text (spanPlan span xs) := by
  obtain ⟨-, ha, hb⟩ := Text.covers_iff.1 hspan
  rw [render_over]
  exact EditList.spliceIn_laid h ha hb

theorem Rendered.of_laid {n : Node} {a c : Nat} (hsolid : solid s.text n.span = true)
    (hfront : front? n.label n.span a = some c)
    (h : Laid s.text n.span.stop c (edits s n).value (editsOf s.text (sites s n))) :
    Rendered s n a n.span.stop := by
  obtain ⟨hac, hstart⟩ := front?_le hfront
  exact ⟨h.mono hac (Nat.le_refl _),
    spliced_eq_render (h.mono hstart (Nat.le_refl _)) (solid_iff.1 hsolid).2⟩

theorem rendered_silent {n : Node} {a b : Nat} (h : placed? s.text a n = some b)
    (hsilent : isSilent n = true) : Rendered s n a b := by
  obtain ⟨hcovers, rfl⟩ := placed_silent h hsilent
  have hnone : (edits s n).value = [] ∧ sites s n = [] := by
    unfold isSilent at hsilent
    split at hsilent
    · simp [edits, editsAll, sites, sitesAll]
    · simp [edits, editsAll, sites, sitesAll]
    · cases hsilent
  refine ⟨?_, ?_⟩
  · rw [hnone.1, hnone.2]
    exact .nil (Nat.le_refl _)
  · rw [hnone.1, hnone.2]
    exact spliced_eq_render (show Laid s.text n.span.stop n.span.start [] (editsOf s.text []) from
      .nil (Text.covers_iff.1 hcovers).1) hcovers

theorem shorthand_laid {span : Span} {parts : List Node} {form : PropertyForm} {computed : Bool}
    (hform : form = .shorthand) (hsolid : solid s.text span = true)
    (hparts : hasParts (.property form computed) span parts = true) :
    ∃ o, shorthand? s parts = some o ∧ Laid s.text span.stop span.start
      (match shorthandRename? s parts with
        | some (name, copy) => [⟨span, name.toList ++ ": ".toList ++ copy.toList⟩]
        | none => (editsAll s parts).value)
      [⟨span, (Piece.expanded o).render s.text⟩] := by
  subst hform
  simp only [hasParts] at hparts
  split at hparts
  · rename_i key keySpan name own inner
    obtain rfl := eq_of_beq hparts
    refine ⟨_, rfl, ?_⟩
    cases hcopy : s.rename? own.start with
    | some copy =>
      simp only [shorthandRename?, hcopy, Option.map_some, Piece.render, Setting.occurrence]
      exact .single hsolid
    | none =>
      simp only [shorthandRename?, hcopy, Option.map_none, Piece.render, Setting.occurrence]
      have hnone : (editsAll s [.mk (.key key) keySpan [], .mk (.reference name) own inner]).value
          = [] := by
        simp [editsAll, edits, hcopy]
      rw [hnone]
      exact .unchanged hsolid rfl
  · cases hparts

theorem placed_shape {a b : Nat} {label : Label} {span : Span} {parts : List Node}
    (h : placed? text a (.mk label span parts) = some b)
    (hsilent : isSilent (.mk label span parts) = false) : hasParts label span parts = true :=
  (placed_parts h hsilent).2.1

mutual

theorem rendered (s : Setting) : ∀ (n : Node) {a b : Nat}, placed? s.text a n = some b →
    Rendered s n a b
  | .mk label span parts, a, b, h => by
    have hall := @laid_all s parts
    have hbody := @laid_body s parts
    have heffect := @laid_effect s parts
    have hcontainer := @laid_container s parts
    have helement := @element_rendered s span parts
    cases hsilent : isSilent (.mk label span parts) with
    | true => exact rendered_silent h hsilent
    | false =>
      obtain ⟨hsolid, hparts, rfl, c, d, hfront, hd, hinner⟩ := placed_parts h hsilent
      -- Only a call, a container, a name and a shorthand property have edits of their own; all
      -- other nodes leave it to their parts.
      have hplaced : isCallback label = false → placedAll? s.text c parts = some d := by
        intro hlabel
        rcases hinner with ⟨concise, hcallback, -⟩ | ⟨-, hd⟩
        · rw [hlabel] at hcallback
          cases hcallback
        · exact hd
      have hplain : Laid s.text span.stop c (editsAll s parts).value
          (editsOf s.text (sitesAll s parts)) := by
        rcases hinner with ⟨concise, -, -, hd⟩ | ⟨-, hd⟩
        · exact (hbody hd).mono (Nat.le_refl _) ‹_›
        · exact (hall hd).mono (Nat.le_refl _) ‹_›
      refine Rendered.of_laid hsolid hfront ?_
      show Laid s.text span.stop c _ _
      cases label with
      | call =>
        obtain rfl := front?_eq hfront (by simp)
        have hd := hplaced rfl
        have hsame := helement hd
        rw [edits, sites]
        cases he : element? s span parts with
        | some element =>
          rw [he] at hsame
          obtain ⟨plan, hplan, htext⟩ := Option.map_eq_some_iff.1 hsame.symm
          simp only [hplan, Draft.value_bind, Draft.value_pure, editsOf_cons, editsOf_nil]
          rw [(Prod.mk.inj htext).1]
          exact .single hsolid
        | none =>
          rw [he] at hsame
          have hplan := Option.map_eq_none_iff.1 hsame.symm
          simp only [hplan]
          split
          · exact (heffect hd).mono (Nat.le_refl _) ‹_›
          · exact hplain
      | container =>
        rw [edits, sites]
        split
        · exact (hcontainer (hplaced rfl) hparts).mono (Nat.le_refl _) ‹_›
        · exact hplain
      | reference name =>
        obtain rfl := front?_eq hfront (by simp)
        rw [edits, sites]
        cases hcopy : s.rename? span.start with
        | some copy =>
          simp only [Draft.value_pure, Option.toList_some, List.map_cons, List.map_nil,
            editsOf_cons, editsOf_nil, render_cons, render_nil, Piece.render, Setting.occurrence,
            hcopy, List.append_nil]
          exact .single hsolid
        | none =>
          simp only [Draft.value_pure, Option.toList_none, List.map_nil, editsOf_cons,
            editsOf_nil, render_cons, render_nil, Piece.render, Setting.occurrence, hcopy,
            List.append_nil]
          exact .unchanged hsolid rfl
      | property form computed =>
        cases form with
        | shorthand =>
          obtain rfl := front?_eq hfront (by simp)
          obtain ⟨o, ho, hlaid⟩ := shorthand_laid rfl hsolid hparts
          rw [edits, sites]
          cases hr : shorthandRename? s parts with
          | some renamed => simpa [hr, ho] using hlaid
          | none => simpa [hr, ho] using hlaid
        | _ => exact hplain
      | _ => exact hplain

theorem laid_all (s : Setting) : ∀ (ns : List Node) {a b : Nat}, placedAll? s.text a ns = some b →
    Laid s.text b a (editsAll s ns).value (editsOf s.text (sitesAll s ns))
  | [], a, b, h => by
    obtain rfl := Option.some.inj h
    exact .nil (Nat.le_refl _)
  | n :: rest, a, b, h => by
    obtain ⟨c, hn, hrest⟩ := placedAll_cons h
    simpa [editsAll, sitesAll] using (rendered s n hn).laid.append (laid_all s rest hrest)

theorem laid_body (s : Setting) : ∀ (ns : List Node) {concise : Bool} {a b : Nat},
    placedBody? s.text concise a ns = some b →
    Laid s.text b a (editsAll s ns).value (editsOf s.text (sitesAll s ns))
  | [], concise, a, b, h => by
    obtain rfl := Option.some.inj h
    exact .nil (Nat.le_refl _)
  | .mk label span parts :: rest, concise, a, b, h => by
    have hparts := @laid_all s parts
    have hn := @rendered s (.mk label span parts)
    have hrest := @laid_body s rest
    rcases placedBody_cons h with ⟨directives, d, rfl, rfl, rfl, hbody⟩ | ⟨-, c, hc, hb⟩
    · have hlaid := (hparts hbody.statements).mono (Nat.le_trans hbody.front hbody.above) hbody.inside
      simpa [editsAll, edits, sitesAll, sites] using hlaid
    · simpa [editsAll, sitesAll] using (hn hc).laid.append (hrest hb)

theorem laid_container (s : Setting) : ∀ (ns : List Node) {a b : Nat},
    placedAll? s.text a ns = some b → ∀ {span : Span}, hasParts .container span ns = true →
    Laid s.text b a (containerEdits s ns).value (editsOf s.text (containerSites s ns))
  | [], a, b, h, _, _ => by
    obtain rfl := Option.some.inj h
    exact .nil (Nat.le_refl _)
  | e :: rest, a, b, h, _, hparts => by
    obtain ⟨c, he, hrest⟩ := placedAll_cons h
    have hrendered := rendered s e he
    have hposition := position_rendered s (fun _ => do return s.spliced e.span (← edits s e))
      (spanPlan e.span (sites s e)) e he hrendered.whole
    have hlaid := laid_all s rest hrest
    simp only [containerEdits, containerSites]
    cases hp : position? s (fun _ => do return s.spliced e.span (← edits s e)) e with
    | none =>
      rw [hp] at hposition
      have hplan := Option.map_eq_none_iff.1 hposition.symm
      simpa [hplan] using hrendered.laid.append hlaid
    | some draft =>
      rw [hp] at hposition
      obtain ⟨plan, hplan, htext⟩ := Option.map_eq_some_iff.1 hposition.symm
      obtain ⟨hsolid, hae, hec⟩ := placed_solid he (by simp_all [hasParts]) (by simp_all [hasParts])
      have hsingle := (Laid.single (t := draft.value) hsolid).mono hae hec
      simpa [hplan, htext] using hsingle.append hlaid

theorem position_rendered (s : Setting) (whole : Unit → Draft (List Char)) (plan : List Piece) :
    ∀ (n : Node) {a b : Nat}, placed? s.text a n = some b →
    (whole ()).value = render s.text plan →
    (position? s whole n).map Draft.value = (positionPlan? s plan n).map (render s.text)
  | .mk label span parts, a, b, h, hwhole => by
    have hproperties := @properties_rendered s parts
    have hinner : ∀ e, parts = [e] → ∀ {a b : Nat}, placed? s.text a e = some b →
        (position? s whole e).map Draft.value = (positionPlan? s plan e).map (render s.text) :=
      match parts with
      | [] | _ :: _ :: _ => by simp
      | [e] => by
        rintro e' ⟨⟩ a b he
        exact position_rendered s whole plan e he hwhole
    unfold position? positionPlan?
    split
    all_goals try rfl
    · rename_i e
      obtain ⟨c, d, hd⟩ := placedAll_parts h rfl
      obtain ⟨d', he, -⟩ := placedAll_cons hd
      exact hinner e rfl he
    · obtain ⟨c, d, hd⟩ := placedAll_parts h rfl
      simp [hproperties hd]
    · simp [hwhole, Piece.render]
    · simp [hwhole]

theorem properties_rendered (s : Setting) : ∀ (ns : List Node) {a b : Nat},
    placedAll? s.text a ns = some b →
    (propertyTexts s ns).value = (propertyPlans s ns).map (render s.text)
  | [], a, b, _ => rfl
  | .mk label span parts :: rest, a, b, h => by
    obtain ⟨c, hn, hrest⟩ := placedAll_cons h
    have hoperand := @operand_rendered s parts
    have hvalue := @value_rendered s parts
    have hwhole : s.spliced span (edits s (.mk label span parts)).value =
        render s.text (spanPlan span (sites s (.mk label span parts))) :=
      (rendered s (.mk label span parts) hn).whole
    have hmore := properties_rendered s rest hrest
    simp only [propertyTexts, propertyPlans, List.map_cons]
    split
    · obtain ⟨c, d, hd⟩ := placedAll_parts hn rfl
      simp [Piece.render, hoperand hd, hmore]
    · obtain ⟨c, d, hd⟩ := placedAll_parts hn rfl
      simp [Piece.render, hvalue hd, hmore, Setting.slice]
    · simpa [hmore] using hwhole

theorem value_rendered (s : Setting) : ∀ (ns : List Node) {a b : Nat},
    placedAll? s.text a ns = some b → (valueText s ns).value = render s.text (valuePlan s ns)
  | [], _, _, _ => rfl
  | [_], _, _, _ => rfl
  | _ :: e :: more, a, b, h => by
    obtain ⟨c, -, hrest⟩ := placedAll_cons h
    obtain ⟨d, he, -⟩ := placedAll_cons hrest
    have hwhole := (rendered s e he).whole
    have hposition := position_rendered s (fun _ => do return s.spliced e.span (← edits s e))
      (spanPlan e.span (sites s e)) e he hwhole
    simp only [valueText, valuePlan, render_append, render_cons, render_nil, Piece.render,
      List.append_nil]
    cases hp : position? s (fun _ => do return s.spliced e.span (← edits s e)) e with
    | none =>
      rw [hp] at hposition
      have hplan := Option.map_eq_none_iff.1 hposition.symm
      simpa [hplan] using hwhole
    | some draft =>
      rw [hp] at hposition
      obtain ⟨plan, hplan, htext⟩ := Option.map_eq_some_iff.1 hposition.symm
      simp [hplan, htext]

theorem operand_rendered (s : Setting) : ∀ (ns : List Node) {a b : Nat},
    placedAll? s.text a ns = some b → (operandText s ns).value = render s.text (operandPlan s ns)
  | [], _, _, _ => rfl
  | e :: more, a, b, h => by
    obtain ⟨c, he, -⟩ := placedAll_cons h
    simpa [operandText, operandPlan, Piece.render] using (rendered s e he).whole

theorem element_rendered (s : Setting) (call : Span) : ∀ (ns : List Node) {a b : Nat},
    placedAll? s.text a ns = some b →
    (element? s call ns).map (fun e => (e.value.text, e.value.isMarkup)) =
      (elementPlan? s call ns).map (fun plan => (render s.text plan.1, plan.2))
  | [], _, _, _ => rfl
  | [_], _, _, _ => rfl
  | callee :: tag :: rest, a, b, h => by
    obtain ⟨c, -, htag⟩ := placedAll_cons h
    obtain ⟨d, htag, hrest⟩ := placedAll_cons htag
    have hprops (names : Names) := props_rendered { s with names := names } rest hrest
    have hchildren (names : Names) := children_rendered { s with names := names } rest hrest
    have htag (names : Names) := (rendered { s with names := names } tag htag).whole
    rcases s.factory_cases callee tag with hfactory | ⟨hfactory, last, hlast⟩ | ⟨hfactory, hother⟩
    · simp [element?, elementPlan?, hfactory]
    · simp [element?, elementPlan?, hfactory, hlast]
    · simp only [element?, elementPlan?, hfactory]
      cases hkind : s.tag tag with
      | name name =>
        have hprops := hprops s.names
        have hchildren := hchildren s.names
        simp [Piece.render, render_taggedPlan (render_tagPlan hkind), hprops]
        split
        · simp
        · simp [hchildren]
      | fragment =>
        have hchildren := hchildren s.names
        simp [Piece.render, hchildren]
      | dynamic =>
        simp [Piece.render, hprops, hchildren, htag]

theorem props_rendered (s : Setting) : ∀ (ns : List Node) {a b : Nat},
    placedAll? s.text a ns = some b → (propsText s ns).value = render s.text (propsPlan s ns)
  | [], _, _, _ => rfl
  | e :: _, a, b, h => by
    obtain ⟨c, he, -⟩ := placedAll_cons h
    exact attribute_rendered s _ _ e he (rendered s e he).whole

theorem attribute_rendered (s : Setting) (whole : Unit → Draft (List Char)) (plan : List Piece) :
    ∀ (n : Node) {a b : Nat}, placed? s.text a n = some b →
    (whole ()).value = render s.text plan →
    (props s whole n).value = render s.text (attributePlan s plan n)
  | .mk label span parts, a, b, h, hwhole => by
    have hoperand := @operand_rendered s parts
    have hattributes := @attributes_rendered s parts
    have hinner : ∀ e, parts = [e] → ∀ {a b : Nat}, placed? s.text a e = some b →
        (props s whole e).value = render s.text (attributePlan s plan e) :=
      match parts with
      | [] | _ :: _ :: _ => by simp
      | [e] => by
        rintro e' ⟨⟩ a b he
        exact attribute_rendered s whole plan e he hwhole
    unfold props attributePlan
    split
    · obtain ⟨c, d, hd⟩ := placedAll_parts h rfl
      simp [hoperand hd]
    · rename_i e
      obtain ⟨c, d, hd⟩ := placedAll_parts h rfl
      obtain ⟨d', he, -⟩ := placedAll_cons hd
      exact hinner e rfl he
    · simp [Piece.render]
    · simp [Piece.render]
    · obtain ⟨c, d, hd⟩ := placedAll_parts h rfl
      exact hattributes hd (placed_shape h rfl)
    · simp [hwhole]

theorem attributes_rendered (s : Setting) : ∀ (ns : List Node) {a b : Nat},
    placedAll? s.text a ns = some b → ∀ {span : Span}, hasParts .object span ns = true →
    (attributes s ns).value = render s.text (attributesPlan s ns)
  | [], _, _, _, _, _ => rfl
  | .mk label span parts :: rest, a, b, h, object, hparts => by
    obtain ⟨c, hn, hrest⟩ := placedAll_cons h
    have hoperand := @operand_rendered s parts
    have hvalue := @value_rendered s parts
    have hwhole : s.spliced span (edits s (.mk label span parts)).value =
        render s.text (spanPlan span (sites s (.mk label span parts))) :=
      (rendered s (.mk label span parts) hn).whole
    obtain ⟨hspread, hshape⟩ := hasParts_object_cons hparts
    have hmore := attributes_rendered s rest hrest hshape
    simp only [attributes, attributesPlan, render_append]
    split
    · rename_i form computed
      obtain ⟨c, d, hd⟩ := placedAll_parts hn rfl
      cases hname : Attribute.name? form computed parts with
      | none =>
        simp only [hname]
        simp [hwhole, hmore]
      | some name =>
        have hquoted := quotedPlan_rendered (s := s) parts
        cases hq : quotedValue? s parts with
        | some quoted =>
          rw [hq] at hquoted
          obtain ⟨plan, hplan, htext⟩ := Option.map_eq_some_iff.1 hquoted
          simp only [hname, hplan]
          simp [htext, hmore, Piece.render]
        | none =>
          rw [hq] at hquoted
          have hplan := Option.map_eq_none_iff.1 hquoted
          simp only [hname, hplan]
          simp [hvalue hd, hmore, Piece.render]
    · rename_i hother
      obtain ⟨last, rfl⟩ := hspread hother
      obtain ⟨c, d, hd⟩ := placedAll_parts hn rfl
      simp [hoperand hd, hmore]

theorem children_rendered (s : Setting) : ∀ (ns : List Node) {a b : Nat},
    placedAll? s.text a ns = some b →
    (childrenText s ns).value = render s.text (childrenPlan s ns)
  | [], _, _, _ => rfl
  | _ :: children, a, b, h => by
    obtain ⟨c, -, hrest⟩ := placedAll_cons h
    exact childTexts_rendered s children hrest

theorem childTexts_rendered (s : Setting) : ∀ (ns : List Node) {a b : Nat},
    placedAll? s.text a ns = some b → (childTexts s ns).value = render s.text (childPlans s ns)
  | [], _, _, _ => rfl
  | .mk label span parts :: rest, a, b, h => by
    obtain ⟨c, hn, hrest⟩ := placedAll_cons h
    have hoperand := @operand_rendered s parts
    have helement := @element_rendered s span parts
    let n := Node.mk label span parts
    let whole := fun (_ : Unit) => (do return s.spliced span (← edits s n) : Draft (List Char))
    have hwhole : s.spliced span (edits s n).value = render s.text (spanPlan span (sites s n)) :=
      (rendered s n hn).whole
    have hposition := position_rendered s whole (spanPlan span (sites s n)) n hn hwhole
    have hmore := childTexts_rendered s rest hrest
    have hbare : (whole ()).value ++ (childTexts s rest).value =
        render s.text (spanPlan span (sites s n) ++ childPlans s rest) := by
      simp [whole, hwhole, hmore]
    have hbraced : (braced <$> whole ()).value ++ (childTexts s rest).value =
        render s.text (bracedPlan (spanPlan span (sites s n)) ++ childPlans s rest) := by
      simp [whole, hwhole, hmore]
    have hother : (braced <$> (position? s whole n).getD (whole ())).value ++ (childTexts s rest).value =
        render s.text (bracedPlan ((positionPlan? s (spanPlan span (sites s n)) n).getD
          (spanPlan span (sites s n))) ++ childPlans s rest) := by
      cases hp : position? s whole n with
      | none =>
        rw [hp] at hposition
        have hplan := Option.map_eq_none_iff.1 hposition.symm
        rw [hplan]
        exact hbraced
      | some draft =>
        rw [hp] at hposition
        obtain ⟨plan, hplan, htext⟩ := Option.map_eq_some_iff.1 hposition.symm
        simp [hplan, htext, hmore]
    -- A child is left bare, put in braces, or taken for a position that is read again and again.
    cases label with
    | spread last =>
      obtain ⟨c, d, hd⟩ := placedAll_parts hn rfl
      simp [childTexts, childPlans, hoperand hd, hmore]
    | string value =>
      simp only [childTexts, childPlans]
      split <;> simp_all [Piece.render, Setting.slice]
    | element | fragment => exact hbare
    | call =>
      obtain ⟨c, d, hd⟩ := placedAll_parts hn rfl
      have hsame := helement hd
      rw [childTexts, childPlans]
      cases he : element? s span parts with
      | some element =>
        rw [he] at hsame
        obtain ⟨plan, hplan, htext⟩ := Option.map_eq_some_iff.1 hsame.symm
        obtain ⟨htext, hmarkup⟩ := Prod.mk.inj htext
        cases hkind : element.value.isMarkup <;> simp_all
      | none =>
        rw [he] at hsame
        rw [Option.map_eq_none_iff.1 hsame.symm]
        exact hbraced
    | _ => exact hother

theorem laid_effect (s : Setting) : ∀ (ns : List Node) {a b : Nat},
    placedAll? s.text a ns = some b →
    Laid s.text b a (effectEdits s ns).value (editsOf s.text (effectSites s ns))
  | [], a, b, h => by
    obtain rfl := Option.some.inj h
    exact .nil (Nat.le_refl _)
  | [callee], a, b, h => by
    obtain ⟨c, he, hb⟩ := placedAll_cons h
    obtain rfl := Option.some.inj hb
    exact (rendered s callee he).laid
  | callee :: .mk label span parts :: rest, a, b, h => by
    obtain ⟨c, he, hargument⟩ := placedAll_cons h
    obtain ⟨d, hn, hrest⟩ := placedAll_cons hargument
    have hcallee := (rendered s callee he).laid
    have hargument := (rendered s (.mk label span parts) hn).laid
    have hbody (names : Names) (renames : List (Nat × String)) :=
      @body_rendered s names renames parts
    have hrest := laid_all s rest hrest
    -- A callback is written anew as a whole; any other argument has its edits laid out like those
    -- of the callee and of the rest.
    cases hcallback : isCallback label with
    | false => simpa [effectEdits, effectSites, hcallback] using (hcallee.append hargument).append hrest
    | true =>
      have hsilent : isSilent (.mk label span parts) = false := isSilent_callback hcallback
      obtain ⟨hsolid, -, rfl, front, stop, hfront, hstop, hinner⟩ := placed_parts hn hsilent
      rcases hinner with ⟨concise, -, rfl, hplaced⟩ | ⟨hfalse, -⟩
      · obtain rfl := front?_eq hfront (by rintro rfl; cases hcallback)
        have htext : s.callbackText (.mk label span parts) =
            render s.text (callbackPlan s (.mk label span parts)) :=
          hbody _ _ hplaced (Nat.le_refl _) hstop (solid_iff.1 hsolid).2
        have hsingle := (Laid.single (t := s.callbackText (.mk label span parts)) hsolid).mono
          (front?_le hfront).1 (Nat.le_refl _)
        rw [effectEdits_callback s hcallback, effectSites_callback s hcallback, editsOf_append,
          editsOf_append, editsOf_cons, editsOf_nil, ← htext]
        exact (hcallee.append hsingle).append hrest
      · rw [hcallback] at hfalse
        cases hfalse

theorem body_rendered (s : Setting) (names : Names) (renames : List (Nat × String)) :
    ∀ (ns : List Node) {copies : List Snapshot} {concise : Bool} {callback : Span}
      {front : List Occurrence} {a b : Nat},
    placedBody? s.text concise a ns = some b → callback.start ≤ a → b ≤ callback.stop →
    Text.covers s.text callback = true →
    s.spliced callback
        (bodyEdits { s with names := names, renames := renames }
          (s.declarations copies) concise ns).value =
      render s.text (bodyPlan s { s with names := names, renames := renames } copies concise
        callback front ns)
  | [], copies, concise, callback, front, a, b, h, ha, hb, hcallback => by
    have hnone := spliced_eq_render (show Laid s.text callback.stop callback.start []
      (editsOf s.text []) from .nil (Text.covers_iff.1 hcallback).1) hcallback
    simpa [bodyEdits, bodyPlan, weave, Piece.render] using hnone
  | .mk label span parts :: rest, copies, concise, callback, front, a, b, h, ha, hb,
      hcallback => by
    have hparts := @laid_all { s with names := names, renames := renames } parts
    have hn := @rendered s (.mk label span parts)
    have hrest := @body_rendered s names renames rest
    rcases placedBody_cons h with ⟨directives, d, rfl, rfl, rfl, hbody⟩ | ⟨hother, c, hc, hplaced⟩
    · have hlaid := hparts hbody.statements
      rw [bodyPlan, bodyEdits_body]
      exact copied_rendered hbody hlaid (Nat.le_trans ha hbody.front) hb hcallback
    · have hc := (hn hc).laid.le
      rw [bodyEdits_skip hother, bodyPlan_skip hother]
      exact hrest hplaced (Nat.le_trans ha hc) hb hcallback

end

end FineGrain
