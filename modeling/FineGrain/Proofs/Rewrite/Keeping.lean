import FineGrain.Proofs.Rewrite.Rendering
import FineGrain.Proofs.Text.Splicing
import FineGrain.Transform
/-!
No edit is lost. In a tree whose parts stand inside the whole and beside one another, in whatever order,
the edits of different parts do not overlap: every call of a collector is accepted, its edit lies in the
stretch of text that the edits are made in, and the new text has every replacement in it, once.
-/

namespace FineGrain

open Grammar Rewrite

variable {text : List Char} {span region : Span} {es es' calls : List Edit} {places places' : List Span}

namespace Span

variable {a b c d : Span}

def holds (outer inner : Span) : Bool := outer.start ≤ inner.start && inner.stop ≤ outer.stop

theorem holds_iff : a.holds b = true ↔ a.start ≤ b.start ∧ b.stop ≤ a.stop := by simp [holds]

theorem holds_self (a : Span) : a.holds a = true := holds_iff.2 ⟨Nat.le_refl _, Nat.le_refl _⟩

theorem holds_trans (h : a.holds b = true) (h' : b.holds c = true) : a.holds c = true := by
  rw [holds_iff] at *
  omega

theorem apart_of_holds (h : a.overlaps b = false) (ha : a.holds c = true) (hb : b.holds d = true) :
    c.overlaps d = false := by
  rw [holds_iff] at ha hb
  rw [not_overlaps_iff] at *
  omega

theorem apart_point (h : a.overlaps b = false) (hb : b.start ≤ b.stop) :
    a.overlaps (point b.stop) = false := by
  rw [not_overlaps_iff] at *
  simp only [point]
  omega

end Span

/-! ### Collectors -/

def Apart (es : List Edit) : Prop := es.Pairwise fun a b => a.span.overlaps b.span = false

/-- What becomes of the calls of a collector whose edits are made in a region.

* `accepted`: no call is refused
* `inside`: each edit lies in the region
* `woven`: the text of the region is what stands between the edits, with each of them put in once -/
structure Kept (text : List Char) (region : Span) (calls : List Edit) : Prop where
  accepted : ∃ l, EditList.recordAll? .empty calls = some l
  inside : ∀ e ∈ calls, region.start ≤ e.span.start ∧ e.span.stop ≤ region.stop
  woven : ∃ es, es.Perm calls ∧ InOrder text region.stop region.start es ∧
    (EditList.ofEdits calls).spliceIn? text region = some (weave text region.stop region.start es)

/-- Edits in some places of the text: each is made in one of them, and no two overlap. -/
structure Spread (text : List Char) (places : List Span) (es : List Edit) : Prop where
  covered : ∀ e ∈ es, Text.covers text e.span = true
  inside : ∀ e ∈ es, ∃ f ∈ places, f.holds e.span = true
  apart : Apart es

namespace Spread

theorem nil : Spread text places [] := ⟨nofun, nofun, .nil⟩

theorem single {t : List Char} (h : Text.covers text span = true) : Spread text [span] [⟨span, t⟩] where
  covered := by simpa using h
  inside := by simpa using span.holds_self
  apart := List.pairwise_singleton _ _

theorem mono (h : Spread text places es)
    (hplaces : ∀ f ∈ places, ∃ g ∈ places', g.holds f = true) : Spread text places' es where
  covered := h.covered
  inside e he := by
    obtain ⟨f, hf, hfe⟩ := h.inside e he
    obtain ⟨g, hg, hgf⟩ := hplaces f hf
    exact ⟨g, hg, Span.holds_trans hgf hfe⟩
  apart := h.apart

theorem append (h : Spread text places es) (h' : Spread text places' es')
    (hcross : ∀ f ∈ places, ∀ g ∈ places', f.overlaps g = false) :
    Spread text (places ++ places') (es ++ es') where
  covered e he := (List.mem_append.1 he).elim (h.covered e) (h'.covered e)
  inside e he := by
    rcases List.mem_append.1 he with he | he
    · obtain ⟨f, hf, hfe⟩ := h.inside e he
      exact ⟨f, List.mem_append_left _ hf, hfe⟩
    · obtain ⟨f, hf, hfe⟩ := h'.inside e he
      exact ⟨f, List.mem_append_right _ hf, hfe⟩
  apart := by
    refine List.pairwise_append.2 ⟨h.apart, h'.apart, fun a ha b hb => ?_⟩
    obtain ⟨f, hf, hfa⟩ := h.inside a ha
    obtain ⟨g, hg, hgb⟩ := h'.inside b hb
    exact Span.apart_of_holds (hcross f hf g hg) hfa hgb

/-- Nothing is lost of edits that are spread over a region. -/
theorem kept (h : Spread text [region] calls) (hregion : Text.covers text region = true) :
    Kept text region calls := by
  obtain ⟨hle, hstart, hstop⟩ := Text.covers_iff.1 hregion
  have hinside : ∀ e ∈ calls, region.holds e.span = true := by simpa using h.inside
  obtain ⟨l, hcalls, hfold, -, hperm, -⟩ :=
    EditList.recordAll?_of_apart (l := .empty) calls .nil h.apart
  obtain rfl : EditList.ofEdits calls = l := hfold
  have hall : (EditList.ofEdits calls).inside region = (EditList.ofEdits calls).edits :=
    List.filter_eq_self.2 fun e he => hinside e (hperm.mem_iff.1 he)
  have horder := EditList.inOrder_inside h.covered hle
  refine ⟨⟨_, hcalls⟩, fun e he => Span.holds_iff.1 (hinside e he), _, hperm, hall ▸ horder, ?_⟩
  rw [EditList.spliceIn?, splice_eq_weave horder hstart hstop, hall]

end Spread

/-! ### Trees -/

mutual

/-- The places that a node takes up. A mere key and an empty statement take up none, for nothing is ever
replaced there; and the scope of a class is no place of its own. -/
def footprint : Node → List Span
  | .mk label span parts =>
      match label, parts with
      | .key _, [] | .statement, [] => []
      | .classScope, parts => footprints parts
      | _, _ => [span]

def footprints : List Node → List Span
  | [] => []
  | n :: rest => footprint n ++ footprints rest

end

def apart (spans : List Span) : Bool := decide (spans.Pairwise fun a b => a.overlaps b = false)

/-- What stands in front of the statements of a body: its brace, or the last directive and the semicolon
behind it. -/
def bodyMarks (text : List Char) (directives : List Span) (body : Span) : List Span :=
  match directives.getLast? with
  | none => [⟨body.start, body.start + 1⟩]
  | some d =>
      if (⟨text, .empty, default, .unscoped, []⟩ : Setting).hasAt d.stop ';' then [d, ⟨d.stop, d.stop + 1⟩]
      else [d]

/-- The marks of a body in braces, the last part of a function literal, stand beside its statements. -/
def marked (text : List Char) : List Node → Bool
  | [] => true
  | [.mk (.body directives) span parts] =>
      let marks := bodyMarks text directives span
      marks.all (fun m => Text.covers text m && span.holds m) && apart (marks ++ footprints parts)
  | _ :: rest => marked text rest

def fits (text : List Char) (label : Label) (parts : List Node) : Bool :=
  match label with
  | .container => parts.all fun e => footprint e == [e.span]
  | .arrow false | .function .expression => marked text parts
  | _ => true

mutual

/-- Whether a tree stands on boundaries of the text, with the parts inside the whole and beside one
another. -/
def nested (text : List Char) : Node → Bool
  | .mk label span parts =>
      Text.covers text span && (label == .classScope || (footprints parts).all span.holds) &&
        apart (footprints parts) && fits text label parts && nestedAll text parts

def nestedAll (text : List Char) : List Node → Bool
  | [] => true
  | n :: rest => nested text n && nestedAll text rest

end

variable {s : Setting} {n m : Node} {label : Label} {parts rest : List Node}

theorem apart_iff {spans : List Span} :
    apart spans = true ↔ spans.Pairwise fun a b => a.overlaps b = false := by simp [apart]

/-- What is known of a nested node. -/
structure NestedParts (text : List Char) (label : Label) (span : Span) (parts : List Node) : Prop where
  covers : Text.covers text span = true
  inside : label ≠ .classScope → ∀ f ∈ footprints parts, span.holds f = true
  apart : apart (footprints parts) = true
  fits : fits text label parts = true
  nested : nestedAll text parts = true

theorem nested_iff : nested text (.mk label span parts) = true ↔ NestedParts text label span parts := by
  rw [nested]
  simp only [Bool.and_eq_true, Bool.or_eq_true, beq_iff_eq, List.all_eq_true]
  constructor
  · rintro ⟨⟨⟨⟨hcovers, hinside⟩, hapart⟩, hfits⟩, hnested⟩
    exact ⟨hcovers, hinside.resolve_left, hapart, hfits, hnested⟩
  · rintro ⟨hcovers, hinside, hapart, hfits, hnested⟩
    exact ⟨⟨⟨⟨hcovers, or_iff_not_imp_left.2 hinside⟩, hapart⟩, hfits⟩, hnested⟩

theorem nestedAll_cons (h : nestedAll text (n :: rest) = true) :
    nested text n = true ∧ nestedAll text rest = true := by
  simpa [nestedAll] using h

theorem nested_of_mem (h : nestedAll text parts = true) (hn : n ∈ parts) : nested text n = true := by
  induction parts with
  | nil => cases hn
  | cons m rest ih =>
    obtain ⟨hm, hrest⟩ := nestedAll_cons h
    rcases List.mem_cons.1 hn with rfl | hn
    · exact hm
    · exact ih hrest hn

theorem apart_cons (h : apart (footprints (n :: rest)) = true) :
    apart (footprint n) = true ∧ apart (footprints rest) = true ∧
      ∀ f ∈ footprint n, ∀ g ∈ footprints rest, f.overlaps g = false := by
  rw [footprints, apart_iff] at h
  rw [apart_iff, apart_iff]
  exact List.pairwise_append.1 h

theorem Spread.of_parts (h : NestedParts text label span parts) (hes : Spread text (footprints parts) es) :
    Spread text (footprint (.mk label span parts)) es := by
  by_cases hscope : label = .classScope
  · subst hscope
    rwa [footprint]
  · unfold footprint
    split
    · exact hes
    · exact hes
    · exact absurd rfl hscope
    · exact hes.mono fun f hf => ⟨span, List.mem_singleton_self _, h.inside hscope f hf⟩

theorem footprint_callback (h : isCallback label = true) : footprint (.mk label span parts) = [span] := by
  unfold isCallback at h
  split at h
  · simp [footprint]
  · simp [footprint]
  · cases h

mutual

theorem edits_spread (s : Setting) : ∀ (n : Node), nested s.text n = true →
    Spread s.text (footprint n) (edits s n).value
  | .mk label span parts, h => by
    have hn := nested_iff.1 h
    have hparts := Spread.of_parts hn (editsAll_spread s parts hn.nested hn.apart)
    have hcontainer := container_spread s parts
    have heffect := Spread.of_parts hn (effect_spread s parts hn.nested hn.apart)
    unfold edits
    split
    · split
      · exact .single hn.covers
      · split
        · exact heffect
        · exact hparts
    · split
      · exact Spread.of_parts hn (hcontainer hn.nested hn.apart hn.fits)
      · exact hparts
    · rename_i name
      show Spread s.text [span] _
      cases hrename : s.rename? span.start with
      | none => exact .nil
      | some copy => exact .single hn.covers
    · split
      · exact .single hn.covers
      · exact hparts
    · exact hparts

theorem editsAll_spread (s : Setting) : ∀ (ns : List Node), nestedAll s.text ns = true →
    apart (footprints ns) = true → Spread s.text (footprints ns) (editsAll s ns).value
  | [], _, _ => .nil
  | n :: rest, h, hapart => by
    obtain ⟨hn, hrest⟩ := nestedAll_cons h
    obtain ⟨-, hbehind, hcross⟩ := apart_cons hapart
    exact (edits_spread s n hn).append (editsAll_spread s rest hrest hbehind) hcross

theorem container_spread (s : Setting) : ∀ (ns : List Node), nestedAll s.text ns = true →
    apart (footprints ns) = true → fits s.text .container ns = true →
    Spread s.text (footprints ns) (containerEdits s ns).value
  | [], _, _, _ => .nil
  | e :: rest, h, hapart, hfits => by
    obtain ⟨he, hrest⟩ := nestedAll_cons h
    obtain ⟨-, hbehind, hcross⟩ := apart_cons hapart
    have hfirst := edits_spread s e he
    have hmore := editsAll_spread s rest hrest hbehind
    have hplace : footprint e = [e.span] := by
      simp only [fits, List.all_cons, Bool.and_eq_true, beq_iff_eq] at hfits
      exact hfits.1
    have hcovers : Text.covers s.text e.span = true := by
      obtain ⟨label, span, parts⟩ := e
      exact (nested_iff.1 he).covers
    simp only [containerEdits]
    cases position? s (fun _ => do return s.spliced e.span (← edits s e)) e with
    | none => exact hfirst.append hmore hcross
    | some draft =>
      rw [hplace] at hcross
      rw [footprints, hplace]
      exact Spread.append (.single hcovers) hmore hcross

theorem effect_spread (s : Setting) : ∀ (ns : List Node), nestedAll s.text ns = true →
    apart (footprints ns) = true → Spread s.text (footprints ns) (effectEdits s ns).value
  | [], _, _ => .nil
  | [callee], h, _ => by
    rw [footprints, footprints, List.append_nil]
    exact edits_spread s callee (nestedAll_cons h).1
  | callee :: .mk label span parts :: rest, h, hapart => by
    obtain ⟨hcallee, hmore⟩ := nestedAll_cons h
    obtain ⟨hargument, hrest⟩ := nestedAll_cons hmore
    obtain ⟨-, hbehind, hcross⟩ := apart_cons hapart
    obtain ⟨-, hlast, hcross'⟩ := apart_cons hbehind
    have hfirst := edits_spread s callee hcallee
    have hsecond := edits_spread s (.mk label span parts) hargument
    have hthird := editsAll_spread s rest hrest hlast
    cases hcallback : isCallback label with
    | false =>
      have hlaid := hfirst.append (hsecond.append hthird hcross') hcross
      simpa [effectEdits, hcallback, footprints] using hlaid
    | true =>
      have hplace : footprint (.mk label span parts) = [span] := footprint_callback hcallback
      rw [hplace] at hcross'
      have hsingle : Spread s.text [span] [⟨span, s.callbackText (.mk label span parts)⟩] :=
        .single (nested_iff.1 hargument).covers
      rw [effectEdits_callback s hcallback, List.append_assoc]
      refine hfirst.append ?_ hcross
      rw [footprints, hplace]
      exact hsingle.append hthird hcross'

end

/-! ### Bodies -/

theorem covers_point {offset : Nat} (h : Text.isBoundary text offset = true) :
    Text.covers text (Span.point offset) = true :=
  Text.covers_iff.2 ⟨Nat.le_refl _, h, h⟩

theorem exists_mark (s : Setting) (directives : List Span) (body : Span) :
    ∃ m ∈ bodyMarks s.text directives body, (s.bodyTop directives body).1 = m.stop := by
  unfold bodyMarks Setting.bodyTop
  cases directives.getLast? with
  | none => exact ⟨_, List.mem_singleton_self _, rfl⟩
  | some d =>
    dsimp only
    by_cases hsemicolon : s.hasAt d.stop ';' = true
    · rw [if_pos (show (⟨s.text, .empty, default, .unscoped, []⟩ : Setting).hasAt d.stop ';' = true from
        hsemicolon), if_pos hsemicolon]
      exact ⟨⟨d.stop, d.stop + 1⟩, by simp, rfl⟩
    · rw [if_neg (show ¬ (⟨s.text, .empty, default, .unscoped, []⟩ : Setting).hasAt d.stop ';' = true from
        hsemicolon), if_neg hsemicolon]
      refine ⟨d, List.mem_singleton_self _, ?_⟩
      split <;> rfl

theorem marked_skip (h : ∀ directives, label = .body directives → rest ≠ []) :
    marked text (.mk label span parts :: rest) = marked text rest := by
  rw [marked]
  rintro directives _ _ ⟨⟩ rfl
  exact h directives rfl rfl

theorem Spread.insertions (offsets : List (Nat × List Char)) (h : Spread text places es)
    (hplaces : ∀ f ∈ places, span.holds f = true)
    (hoffsets : ∀ o ∈ offsets, Text.isBoundary text o.1 = true ∧ span.start ≤ o.1 ∧ o.1 ≤ span.stop ∧
      ∀ f ∈ places, f.overlaps (Span.point o.1) = false) :
    Spread text [span] (es ++ offsets.map fun o => ⟨Span.point o.1, o.2⟩) := by
  have hpoints : Spread text (offsets.map fun o => Span.point o.1)
      (offsets.map fun o => ⟨Span.point o.1, o.2⟩) := by
    refine ⟨?_, ?_, ?_⟩
    · intro e he
      obtain ⟨o, ho, rfl⟩ := List.mem_map.1 he
      exact covers_point (hoffsets o ho).1
    · intro e he
      obtain ⟨o, ho, rfl⟩ := List.mem_map.1 he
      exact ⟨_, List.mem_map_of_mem ho, Span.holds_self _⟩
    · refine List.pairwise_map.2 (List.pairwise_of_forall fun a b => ?_)
      rw [Span.not_overlaps_iff]
      exact Nat.le_total _ _
  have hboth := h.append hpoints fun f hf g hg => by
    obtain ⟨o, ho, rfl⟩ := List.mem_map.1 hg
    exact (hoffsets o ho).2.2.2 f hf
  refine hboth.mono fun f hf => ⟨span, List.mem_singleton_self _, ?_⟩
  rcases List.mem_append.1 hf with hf | hf
  · exact hplaces f hf
  · obtain ⟨o, ho, rfl⟩ := List.mem_map.1 hf
    exact Span.holds_iff.2 ⟨(hoffsets o ho).2.1, (hoffsets o ho).2.2.1⟩

theorem statements_spread (s : Setting) {declarations : List Char} {concise : Bool} {directives : List Span}
    (h : nested s.text (.mk (.body directives) span parts) = true)
    (hmarked : concise = false → marked s.text [.mk (.body directives) span parts] = true) :
    Spread s.text [span] (bodyEdits s declarations concise [.mk (.body directives) span parts]).value := by
  have hbody := nested_iff.1 h
  have hinside := hbody.inside nofun
  have hstatements := editsAll_spread s parts hbody.nested hbody.apart
  obtain ⟨hle, hstart, hstop⟩ := Text.covers_iff.1 hbody.covers
  rw [bodyEdits_body]
  split
  · exact hstatements.mono fun f hf => ⟨span, List.mem_singleton_self _, hinside f hf⟩
  · split
    · refine .insertions [(span.start, _), (span.stop, _)] hstatements hinside fun o ho => ?_
      have hedge {f : Span} (hf : f ∈ footprints parts) := Span.holds_iff.1 (hinside f hf)
      simp only [List.mem_cons, List.not_mem_nil, or_false] at ho
      rcases ho with rfl | rfl
      · exact ⟨hstart, Nat.le_refl _, hle, fun f hf => Span.not_overlaps_iff.2 (.inl (hedge hf).1)⟩
      · exact ⟨hstop, hle, Nat.le_refl _, fun f hf => Span.not_overlaps_iff.2 (.inr (hedge hf).2)⟩
    · rename_i hconcise
      have hmarks := hmarked (Bool.eq_false_iff.2 hconcise)
      simp only [marked, Bool.and_eq_true, List.all_eq_true] at hmarks
      obtain ⟨hmarks, hapart⟩ := hmarks
      obtain ⟨m, hm, htop⟩ := exists_mark s directives span
      obtain ⟨hcovers, hholds⟩ := hmarks m hm
      obtain ⟨hm', -, hend⟩ := Text.covers_iff.1 hcovers
      obtain ⟨hfirst, hlast⟩ := Span.holds_iff.1 hholds
      have hcross := (List.pairwise_append.1 (apart_iff.1 hapart)).2.2 m hm
      refine .insertions [((s.bodyTop directives span).1,
        (s.bodyTop directives span).2 ++ declarations)] hstatements hinside fun o ho => ?_
      obtain rfl := List.mem_singleton.1 ho
      rw [htop]
      exact ⟨hend, Nat.le_trans hfirst hm', hlast, fun f hf =>
        Span.apart_point (Span.not_overlaps_symm (hcross f hf)) hm'⟩

theorem body_spread (s : Setting) (declarations : List Char) (concise : Bool) (callback : Span) :
    ∀ (ns : List Node), nestedAll s.text ns = true → (∀ f ∈ footprints ns, callback.holds f = true) →
    (concise = false → marked s.text ns = true) →
    Spread s.text [callback] (bodyEdits s declarations concise ns).value
  | [], _, _, _ => .nil
  | .mk label span parts :: rest, h, hinside, hmarked => by
    obtain ⟨hn, hrest⟩ := nestedAll_cons h
    have hmore := body_spread s declarations concise callback rest hrest fun f hf =>
      hinside f (List.mem_append_right _ hf)
    rcases body_or_skip label rest with ⟨directives, rfl, rfl⟩ | hother
    · have hhere : callback.holds span = true := hinside span (by simp [footprints, footprint])
      exact (statements_spread s hn hmarked).mono fun f hf =>
        ⟨callback, List.mem_singleton_self _, List.mem_singleton.1 hf ▸ hhere⟩
    · rw [bodyEdits_skip hother]
      rw [marked_skip hother] at hmarked
      exact hmore hmarked

/-! ### Units -/

/-- A tree that is found in another one. -/
inductive Inside (n : Node) : Node → Prop
  | whole : Inside n n
  | part {m p : Node} (inside : Inside n m) (mem : p ∈ m.parts) : Inside n p

theorem nested_inside (h : nested text n = true) (hm : Inside n m) : nested text m = true := by
  induction hm with
  | whole => exact h
  | @part m p _ hp ih =>
    obtain ⟨label, span, parts⟩ := m
    exact nested_of_mem (nested_iff.1 ih).nested hp

theorem kept_edits (s : Setting) (h : nested s.text n = true) (hscope : n.label ≠ .classScope) :
    Kept s.text n.span (edits s n).value := by
  obtain ⟨label, span, parts⟩ := n
  have hn := nested_iff.1 h
  refine ((edits_spread s _ h).mono fun f hf => ⟨span, List.mem_singleton_self _, ?_⟩).kept hn.covers
  unfold footprint at hf
  split at hf
  · cases hf
  · cases hf
  · exact absurd rfl hscope
  · exact List.mem_singleton.1 hf ▸ span.holds_self

theorem kept_bodyEdits (s : Setting) (declarations : List Char) (h : nested s.text n = true)
    (hcallback : isCallback n.label = true) :
    Kept s.text n.span (bodyEdits s declarations (n.label == .arrow true) n.parts).value := by
  obtain ⟨label, span, parts⟩ := n
  have hn := nested_iff.1 h
  have hmarked : (label == .arrow true) = false → marked s.text parts = true := fun hconcise => by
    change isCallback label = true at hcallback
    have hfits := hn.fits
    unfold isCallback at hcallback
    split at hcallback
    · rename_i concise
      cases concise with
      | false => exact hfits
      | true => exact absurd hconcise (by decide)
    · exact hfits
    · cases hcallback
  exact (body_spread s declarations _ span parts hn.nested
    (hn.inside fun hscope => by subst hscope; cases hcallback) hmarked).kept hn.covers

namespace Transform

/-- What the import of the helpers is put behind. -/
def importMarks (program : Program) : List Span := (program.directives.getLast?.or program.hashbang).toList

/-- Whether a unit stands on boundaries of its text, with the parts inside the whole and beside one
another. -/
def nested (text : List Char) (program : Program) : Bool :=
  nestedAll text program.statements && (importMarks program).all (Text.covers text) &&
    apart (importMarks program ++ footprints program.statements)

/-- The edits of a unit, the last of them the import of the helpers if there is one. -/
def recorded (options : Options) (program : Program) (edits : Draft (List Edit)) : List Edit :=
  edits.value ++
    match options.injectRuntimeImport, helperImport? options (.ofGenerated edits.generated) with
    | true, some line => [importEdit program line]
    | _, _ => []

variable {options : Options} {program : Program}

theorem output_eq (options : Options) (program : Program) (text : List Char) (edits : Draft (List Edit)) :
    output options program text edits =
      (EditList.ofEdits (recorded options program edits)).spliceIn text ⟨0, Text.byteLength text⟩ := by
  cases hasked : options.injectRuntimeImport with
  | false => simp [output, recorded, hasked]
  | true =>
    cases hline : helperImport? options (.ofGenerated edits.generated) with
    | none => simp [output, recorded, hline]
    | some line =>
      simp only [output, recorded, hasked, hline, EditList.ofEdits, List.foldl_append, List.foldl_cons,
        List.foldl_nil]

theorem importEdit_cases (program : Program) (line : List Char) : ∃ offset t,
    importEdit program line = ⟨Span.point offset, t⟩ ∧
      (offset = 0 ∨ ∃ m ∈ importMarks program, m.stop = offset) := by
  unfold importEdit importMarks
  cases program.directives.getLast? with
  | some d => exact ⟨d.stop, _, rfl, .inr ⟨d, by simp, rfl⟩⟩
  | none =>
    cases program.hashbang with
    | some h => exact ⟨h.stop, _, rfl, .inr ⟨h, by simp, rfl⟩⟩
    | none => exact ⟨0, _, rfl, .inl rfl⟩

theorem recorded_spread (h : nested s.text program = true) (options : Options) :
    Spread s.text [⟨0, Text.byteLength s.text⟩]
      (recorded options program (editsAll s program.statements)) := by
  rw [nested, Bool.and_eq_true, Bool.and_eq_true, List.all_eq_true] at h
  obtain ⟨⟨hnested, hcovers⟩, hapart⟩ := h
  obtain ⟨-, hbehind, hcross⟩ := List.pairwise_append.1 (apart_iff.1 hapart)
  have hstatements := editsAll_spread s program.statements hnested (apart_iff.2 hbehind)
  have hwhole {places : List Span} {es : List Edit} (h : Spread s.text places es) :
      Spread s.text [⟨0, Text.byteLength s.text⟩] es := by
    refine ⟨h.covered, fun e he => ⟨_, List.mem_singleton_self _, Span.holds_iff.2 ?_⟩, h.apart⟩
    exact ⟨Nat.zero_le _, Text.le_byteLength (Text.covers_iff.1 (h.covered e he)).2.2⟩
  unfold recorded
  split
  · rename_i line _ _
    obtain ⟨offset, t, hedit, hoffset⟩ := importEdit_cases program line
    rw [hedit]
    have hpoint : Text.isBoundary s.text offset = true ∧
        ∀ f ∈ footprints program.statements, f.overlaps (Span.point offset) = false := by
      rcases hoffset with rfl | ⟨m, hm, rfl⟩
      · exact ⟨Text.isBoundary_zero, fun f _ => Span.not_overlaps_iff.2 (.inl (Nat.zero_le _))⟩
      · obtain ⟨hle, -, hstop⟩ := Text.covers_iff.1 (hcovers m hm)
        exact ⟨hstop, fun f hf => Span.apart_point (Span.not_overlaps_symm (hcross m hm f hf)) hle⟩
    refine hwhole (hstatements.append (.single (covers_point hpoint.1)) fun f hf g hg => ?_)
    obtain rfl := List.mem_singleton.1 hg
    exact hpoint.2 f hf
  · rw [List.append_nil]
    exact hwhole hstatements

end Transform

/-- No edit is lost: where the tree of a unit stands on boundaries, with the parts inside the whole and
beside one another, every call of a collector is accepted, whichever part of the tree it goes through and
whatever surrounds that part, and so are the insertions of copies and of the import; each edit lies in the
stretch of text that it is made in, and comes to stand in the new text once. -/
theorem no_edit_lost (options : Options) (frame : AliasFrame) (names : Names) (text : List Char)
    (program : Program) (h : Transform.nested text program = true) :
    let unit := editsAll (Transform.setting options frame text names) program.statements
    Kept text ⟨0, Text.byteLength text⟩ (Transform.recorded options program unit) ∧
      (∃ es, es.Perm (Transform.recorded options program unit) ∧
        Transform.output options program text unit = weave text (Text.byteLength text) 0 es) ∧
      ∀ n ∈ program.statements, ∀ m, Inside n m → ∀ s : Setting, s.text = text →
        (m.label ≠ .classScope → Kept text m.span (edits s m).value) ∧
        (isCallback m.label = true → ∀ declarations,
          Kept text m.span (bodyEdits s declarations (m.label == .arrow true) m.parts).value) := by
  intro unit
  have hkept : Kept text ⟨0, Text.byteLength text⟩ (Transform.recorded options program unit) :=
    (Transform.recorded_spread (s := Transform.setting options frame text names) h options).kept
      (Text.covers_iff.2 ⟨Nat.zero_le _, Text.isBoundary_zero, Text.isBoundary_byteLength⟩)
  refine ⟨hkept, ?_, ?_⟩
  · obtain ⟨es, hperm, -, hwoven⟩ := hkept.woven
    refine ⟨es, hperm, ?_⟩
    rw [Transform.output_eq, EditList.spliceIn, hwoven, Option.getD_some]
  · rintro n hn m hm s rfl
    rw [Transform.nested, Bool.and_eq_true, Bool.and_eq_true] at h
    have hnested := nested_inside (nested_of_mem h.1.1 hn) hm
    exact ⟨kept_edits s hnested, fun hcallback declarations =>
      kept_bodyEdits s declarations hnested hcallback⟩

/-- A unit with a directive, two effects of different forms, a shorthand property and a factory call in a
container. -/
def crowded : List Char :=
  ("\"use client\";import\x7bcreateElement as h,useEffect\x7dfrom\"react\";" ++
    "const F=(p)=>\x7buseEffect(()=>\x7b\"a\";g(p.x)\x7d);useEffect(()=>g(p));" ++
    "return<a b=\x7bh(\"i\",\x7bp\x7d)\x7d/>\x7d").toList

/-- Both callbacks, the factory call and the import of the helpers come to stand in the new text. -/
theorem no_edit_lost_crowded : ∃ program, Program.parse? (.ofPath "a.tsx") crowded = some program ∧
    Transform.nested crowded program = true ∧
    ∃ unit es, unit = editsAll (Transform.setting {} (Transform.addAliases {} program .empty) crowded
        (Transform.named {} crowded).2) program.statements ∧
      es.Perm (Transform.recorded {} program unit) ∧ es.length = 4 ∧
      Transform.output {} program crowded unit = weave crowded (Text.byteLength crowded) 0 es := by
  have hparse : (Program.parse? (.ofPath "a.tsx") crowded).any (fun program =>
      Transform.nested crowded program && (Transform.recorded {} program
        (editsAll (Transform.setting {} (Transform.addAliases {} program .empty) crowded
          (Transform.named {} crowded).2) program.statements)).length == 4) = true := by
    decide +kernel
  obtain ⟨program, hparse, hunit⟩ := (Option.any_eq_true _ _).1 hparse
  rw [Bool.and_eq_true, beq_iff_eq] at hunit
  obtain ⟨es, hperm, houtput⟩ := (no_edit_lost {} _ _ crowded program hunit.1).2.1
  exact ⟨program, hparse, hunit.1, _, es, rfl, hperm, hperm.length_eq.trans hunit.2, houtput⟩

end FineGrain
