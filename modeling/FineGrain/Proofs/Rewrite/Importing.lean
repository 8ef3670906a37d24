import FineGrain.Proofs.Rewrite.Bindings
import FineGrain.Proofs.Text.Splicing
import FineGrain.Transform
/-!
The import of the helpers. It names the helpers that some binding in the text of the unit calls, and
nothing else in the text depends on whether it is asked for.
-/

namespace FineGrain

open Grammar Rewrite

/-! ### What a rewrite does not look at -/

namespace Setting

def importing (s : Setting) (asked : Bool) : Setting :=
  { s with options := { s.options with injectRuntimeImport := asked } }

variable {s : Setting} {asked : Bool}

theorem snapshots_importing (visible : List Char) (copied : List Lexical.FreeVariable)
    (names : Names) :
    (s.importing asked).snapshots visible copied names = s.snapshots visible copied names := by
  induction copied generalizing names with
  | nil => rfl
  | cons v rest ih =>
    simp only [snapshots, ih]
    rfl

end Setting

variable {s : Setting} {asked : Bool}

mutual

theorem edits_importing (s : Setting) (asked : Bool) :
    ∀ n : Node, edits (s.importing asked) n = edits s n
  | .mk label span parts => by
    have hall := editsAll_importing s asked parts
    have helement := element_importing s asked span parts
    have heffect := effectEdits_importing s asked parts
    have hcontainer := containerEdits_importing s asked parts
    unfold edits
    rw [hall, helement, heffect, hcontainer]
    rfl

theorem editsAll_importing (s : Setting) (asked : Bool) :
    ∀ ns : List Node, editsAll (s.importing asked) ns = editsAll s ns
  | [] => rfl
  | n :: rest => by
    rw [editsAll, editsAll, edits_importing s asked n, editsAll_importing s asked rest]

theorem containerEdits_importing (s : Setting) (asked : Bool) :
    ∀ ns : List Node, containerEdits (s.importing asked) ns = containerEdits s ns
  | [] => rfl
  | e :: rest => by
    rw [containerEdits, containerEdits, edits_importing s asked e,
      editsAll_importing s asked rest, position_importing s asked _ e]
    rfl

theorem position_importing (s : Setting) (asked : Bool) (whole : Unit → Draft (List Char)) :
    ∀ n : Node, position? (s.importing asked) whole n = position? s whole n
  | .mk label span parts => by
    have hproperties := propertyTexts_importing s asked parts
    have hinner : ∀ e, parts = [e] →
        position? (s.importing asked) whole e = position? s whole e :=
      match parts with
      | [] | _ :: _ :: _ => by simp
      | [e] => by
        rintro e' ⟨⟩
        exact position_importing s asked whole e
    unfold position?
    split
    all_goals try rfl
    · rename_i e
      exact hinner e rfl
    · rw [hproperties]

theorem propertyTexts_importing (s : Setting) (asked : Bool) :
    ∀ ns : List Node, propertyTexts (s.importing asked) ns = propertyTexts s ns
  | [] => rfl
  | .mk label span parts :: rest => by
    unfold propertyTexts
    rw [operandText_importing s asked parts,
      valueText_importing s asked parts, edits_importing s asked (.mk label span parts),
      propertyTexts_importing s asked rest]
    rfl

theorem valueText_importing (s : Setting) (asked : Bool) :
    ∀ ns : List Node, valueText (s.importing asked) ns = valueText s ns
  | [] => rfl
  | [_] => rfl
  | _ :: e :: _ => by
    rw [valueText, valueText, edits_importing s asked e, position_importing s asked _ e]
    rfl

theorem operandText_importing (s : Setting) (asked : Bool) :
    ∀ ns : List Node, operandText (s.importing asked) ns = operandText s ns
  | [] => rfl
  | e :: _ => by
    rw [operandText, operandText, edits_importing s asked e]
    rfl

theorem element_importing (s : Setting) (asked : Bool) (call : Span) :
    ∀ ns : List Node, element? (s.importing asked) call ns = element? s call ns
  | [] => rfl
  | [_] => rfl
  | callee :: tag :: rest => by
    have hprops (names : Names) := propsText_importing { s with names := names } asked rest
    have hchildren (names : Names) := childrenText_importing { s with names := names } asked rest
    have htag (names : Names) := edits_importing { s with names := names } asked tag
    have hsame (names : Names) : { s.importing asked with names := names } =
      ({ s with names := names } : Setting).importing asked := rfl
    simp only [element?, hsame, hprops, hchildren, htag]
    rfl

theorem propsText_importing (s : Setting) (asked : Bool) :
    ∀ ns : List Node, propsText (s.importing asked) ns = propsText s ns
  | [] => rfl
  | e :: _ => by
    rw [propsText, propsText, edits_importing s asked e, props_importing s asked _ e]
    rfl

theorem props_importing (s : Setting) (asked : Bool) (whole : Unit → Draft (List Char)) :
    ∀ n : Node, props (s.importing asked) whole n = props s whole n
  | .mk label span parts => by
    have hoperand := operandText_importing s asked parts
    have hattributes := attributes_importing s asked parts
    have hinner : ∀ e, parts = [e] → props (s.importing asked) whole e = props s whole e :=
      match parts with
      | [] | _ :: _ :: _ => by simp
      | [e] => by
        rintro e' ⟨⟩
        exact props_importing s asked whole e
    unfold props
    split
    · rw [hoperand]
    · rename_i e
      exact hinner e rfl
    all_goals first
      | rfl
      | exact hattributes

theorem attributes_importing (s : Setting) (asked : Bool) :
    ∀ ns : List Node, attributes (s.importing asked) ns = attributes s ns
  | [] => rfl
  | .mk label span parts :: rest => by
    unfold attributes
    rw [operandText_importing s asked parts,
      valueText_importing s asked parts, edits_importing s asked (.mk label span parts),
      attributes_importing s asked rest]
    rfl

theorem childrenText_importing (s : Setting) (asked : Bool) :
    ∀ ns : List Node, childrenText (s.importing asked) ns = childrenText s ns
  | [] => rfl
  | _ :: children => childTexts_importing s asked children

theorem childTexts_importing (s : Setting) (asked : Bool) :
    ∀ ns : List Node, childTexts (s.importing asked) ns = childTexts s ns
  | [] => rfl
  | .mk label span parts :: rest => by
    unfold childTexts
    dsimp only
    rw [operandText_importing s asked parts,
      element_importing s asked span parts, edits_importing s asked (.mk label span parts),
      position_importing s asked _ (.mk label span parts), childTexts_importing s asked rest]
    rfl

theorem effectEdits_importing (s : Setting) (asked : Bool) :
    ∀ ns : List Node, effectEdits (s.importing asked) ns = effectEdits s ns
  | [] => rfl
  | [callee] => edits_importing s asked callee
  | callee :: .mk label span parts :: rest => by
    have hbody (copies : List Snapshot) (names : Names) :
        bodyEdits ((s.importing asked).copying copies names) ((s.importing asked).declarations copies)
            (label == .arrow true) parts =
          bodyEdits (s.copying copies names) (s.declarations copies) (label == .arrow true) parts :=
      bodyEdits_importing (s.copying copies names) asked _ _ parts
    simp only [effectEdits, edits_importing s asked callee,
      edits_importing s asked (.mk label span parts), editsAll_importing s asked rest,
      Setting.snapshots_importing, hbody]
    rfl

theorem bodyEdits_importing (s : Setting) (asked : Bool) (declarations : List Char)
    (concise : Bool) : ∀ ns : List Node,
    bodyEdits (s.importing asked) declarations concise ns = bodyEdits s declarations concise ns
  | [] => rfl
  | .mk label span parts :: rest => by
    rcases body_or_skip label rest with ⟨directives, rfl, rfl⟩ | hother
    · rw [bodyEdits, bodyEdits, editsAll_importing s asked parts]
      rfl
    · rw [bodyEdits_skip hother, bodyEdits_skip hother]
      exact bodyEdits_importing s asked declarations concise rest

end

/-! ### The line that is put in -/

/-- The helpers that the text of a plan calls. -/
def helpersIn (plan : List Piece) : Helpers := .ofGenerated ((bindings plan).map Prod.fst)

variable {plan : List Piece} {made more : List Generated}

theorem mem_bindings {call : Generated × String} :
    call ∈ bindings plan ↔ .binds call.1 call.2 ∈ plan := by
  rw [bindings, gathered, List.mem_flatMap]
  constructor
  · rintro ⟨piece, hpiece, hcall⟩
    cases piece <;> simp_all [Piece.bindings]
  · exact fun h => ⟨_, h, by simp [Piece.bindings]⟩

theorem peek_helpersIn : (helpersIn plan).peek = true ↔
    ∃ name source helper, .binds (.copy name source) helper ∈ plan := by
  simp only [helpersIn, Helpers.ofGenerated, List.any_map, List.any_eq_true, mem_bindings]
  constructor
  · rintro ⟨⟨binding, helper⟩, hmem, hcopy⟩
    cases binding with
    | copy name source => exact ⟨name, source, helper, hmem⟩
    | tag name => cases hcopy
  · rintro ⟨name, source, helper, hmem⟩
    exact ⟨(.copy name source, helper), hmem, rfl⟩

theorem adapter_helpersIn : (helpersIn plan).adapter = true ↔
    ∃ name helper, .binds (.tag name) helper ∈ plan := by
  simp only [helpersIn, Helpers.ofGenerated, List.any_map, List.any_eq_true, mem_bindings]
  constructor
  · rintro ⟨⟨binding, helper⟩, hmem, htag⟩
    cases binding with
    | copy name source => cases htag
    | tag name => exact ⟨name, helper, hmem⟩
  · rintro ⟨name, helper, hmem⟩
    exact ⟨(.tag name, helper), hmem, rfl⟩

theorem Helpers.ofGenerated_perm (h : made.Perm more) :
    Helpers.ofGenerated made = .ofGenerated more := by
  simp only [ofGenerated, h.any_eq]

theorem Options.map_fst_calls (options : Options) (made : List Generated) :
    (options.calls made).map Prod.fst = made := by
  simp [calls, Function.comp_def]

namespace Transform

/-- Where the import of the helpers goes: behind the directives, or else behind the first line if that
addresses the system, or else to the front. -/
def importOffset (program : Program) : Nat :=
  match program.directives.getLast?, program.hashbang with
  | some d, _ => d.stop
  | none, some h => h.stop
  | none, none => 0

theorem importEdit_span (program : Program) (line : List Char) :
    (importEdit program line).span = Span.point (importOffset program) := by
  unfold importEdit importOffset
  split <;> simp [*]

/-- The tree of a unit is one that its text can have: the directives stand one behind another, the
statements are placed behind the offset where the import goes, and every node is complete. -/
structure Sound (text : List Char) (program : Program) : Prop where
  directives : program.directives.Pairwise fun d later => d.stop ≤ later.stop
  boundary : Text.isBoundary text (importOffset program) = true
  placed : ∃ stop, placedAll? text (importOffset program) program.statements = some stop ∧
    stop ≤ Text.byteLength text
  complete : completeAll program.statements = true

instance (text : List Char) (program : Program) : Decidable (Sound text program) :=
  decidable_of_iff (program.directives.Pairwise (fun d later => d.stop ≤ later.stop) ∧
      Text.isBoundary text (importOffset program) = true ∧
      (placedAll? text (importOffset program) program.statements).any (· ≤ Text.byteLength text) = true ∧
        completeAll program.statements = true)
    ⟨fun ⟨hdirectives, hboundary, hplaced, hcomplete⟩ => ⟨hdirectives, hboundary,
      by simpa [Option.any_eq_true] using hplaced, hcomplete⟩,
      fun h => ⟨h.directives, h.boundary, by simpa [Option.any_eq_true] using h.placed, h.complete⟩⟩

def unitPlan (s : Setting) (program : Program) : List Piece :=
  spanPlan ⟨0, Text.byteLength s.text⟩ (sitesAll s program.statements)

/-- What is put in for the helpers that some text calls: nothing if it calls none. -/
def importText (options : Options) (program : Program) (helpers : Helpers) : List Char :=
  match helperImport? options helpers with
  | some line => (importEdit program line).text
  | none => []

variable {s : Setting} {program : Program}

theorem bindings_unitPlan (h : completeAll program.statements = true) :
    (bindings (unitPlan s program)).Perm
      (s.options.calls (editsAll s program.statements).generated) := by
  simpa [unitPlan, Notes] using notes_editsAll s program.statements h

theorem helpersIn_unitPlan (h : completeAll program.statements = true) :
    helpersIn (unitPlan s program) = .ofGenerated (editsAll s program.statements).generated := by
  have hmade := (bindings_unitPlan (s := s) h).map Prod.fst
  rw [Options.map_fst_calls] at hmade
  exact Helpers.ofGenerated_perm hmade

theorem output_of_laid {options : Options} {text : List Char} {d : Draft (List Edit)}
    {sites : List Edit} {stop : Nat} (h : Laid text stop (importOffset program) d.value sites)
    (hstop : stop ≤ Text.byteLength text)
    (hoffset : Text.isBoundary text (importOffset program) = true) :
    output options program text d = Text.slice text ⟨0, importOffset program⟩ ++
      (if options.injectRuntimeImport then importText options program (.ofGenerated d.generated)
        else []) ++ weave text (Text.byteLength text) (importOffset program) sites := by
  have hplain : (EditList.ofEdits d.value).spliceIn text ⟨0, Text.byteLength text⟩ =
      Text.slice text ⟨0, importOffset program⟩ ++
        weave text (Text.byteLength text) (importOffset program) sites := by
    rw [EditList.spliceIn_laid (h.mono (Nat.zero_le _) hstop) Text.isBoundary_zero
      Text.isBoundary_byteLength, slice_weave (h.sites_inOrder.mono (Nat.le_refl _) hstop)
      (Nat.zero_le _) Text.isBoundary_zero hoffset Text.isBoundary_byteLength]
  unfold output importText
  cases hasked : options.injectRuntimeImport with
  | false => simpa using hplain
  | true =>
    cases hline : helperImport? options (.ofGenerated d.generated) with
    | none => simpa using hplain
    | some line =>
      have hinserted := EditList.spliceIn_insert (t := (importEdit program line).text) h
        (Nat.zero_le _) hstop Text.isBoundary_zero hoffset Text.isBoundary_byteLength
      simpa [EditList.ofEdits, List.foldl_append, importEdit_span] using hinserted

/-- Whether the import of the helpers is asked for or not, the text of a unit is that of its plan, with
the import put in if it is asked for and some helper is called. Every binding in that text calls the
helper of its kind. -/
theorem output_imported (options : Options) (frame : AliasFrame) (names : Names)
    {text : List Char} {program : Program} (h : Sound text program) :
    let plan := unitPlan (setting options frame text names) program
    let answer (asked : Bool) :=
      let options := { options with injectRuntimeImport := asked }
      output options program text
        (editsAll (setting options frame text names) program.statements)
    (∀ binding helper, .binds binding helper ∈ plan → helper = options.helper binding) ∧
      ∃ rest, render text plan = Text.slice text ⟨0, importOffset program⟩ ++ rest ∧
        answer false = Text.slice text ⟨0, importOffset program⟩ ++ rest ∧
        answer true = Text.slice text ⟨0, importOffset program⟩ ++
          importText options program (helpersIn plan) ++ rest := by
  intro plan answer
  obtain ⟨stop, hplaced, hstop⟩ := h.placed
  have hlaid := laid_all (setting options frame text names) program.statements hplaced
  have hhelpers := helpersIn_unitPlan (s := setting options frame text names) h.complete
  have hanswer (asked : Bool) : answer asked = Text.slice text ⟨0, importOffset program⟩ ++
      (if asked then importText options program (helpersIn plan) else []) ++
        weave text (Text.byteLength text) (importOffset program)
          (editsOf text (sitesAll (setting options frame text names) program.statements)) := by
    have hedits := editsAll_importing (setting options frame text names) asked program.statements
    rw [hhelpers]
    exact (congrArg (output _ program text) hedits).trans (output_of_laid hlaid hstop h.boundary)
  have hplan : render text plan = _ := render_over.trans (slice_weave
    (hlaid.sites_inOrder.mono (Nat.le_refl _) hstop) (Nat.zero_le _) Text.isBoundary_zero h.boundary
    Text.isBoundary_byteLength).symm
  have hoff : answer false = _ := (hanswer false).trans (by rw [if_neg Bool.false_ne_true,
    List.append_nil])
  refine ⟨fun binding helper hmem => ?_, _, hplan, hoff, hanswer true⟩
  have hcall : (binding, helper) ∈ bindings plan := mem_bindings.2 hmem
  obtain ⟨g, -, hg⟩ := List.mem_map.1 ((bindings_unitPlan h.complete).mem_iff.1 hcall)
  cases hg
  rfl

/-! ### Units without edits -/

/-- Where no edit is made, no binding is noted. -/
def Quiet (d : Draft (List Edit)) : Prop := d.value = [] → d.generated = []

theorem Quiet.pure {edits : List Edit} : Quiet (Pure.pure edits) := fun _ => rfl

theorem Quiet.append {d e : Draft (List Edit)} (hd : Quiet d) (he : Quiet e) :
    Quiet (do return (← d) ++ (← e)) := by
  intro h
  obtain ⟨hdv, hev⟩ := List.append_eq_nil_iff.1 h
  simp [hd hdv, he hev]

mutual

theorem quiet_edits (s : Setting) : ∀ n, Quiet (edits s n)
  | .mk label span parts => by
    have hall := quiet_editsAll s parts
    have heffect := quiet_effectEdits s parts
    have hcontainer := quiet_containerEdits s parts
    unfold edits
    split
    · split
      · exact fun h => absurd h (List.cons_ne_nil _ _)
      · split
        · exact heffect
        · exact hall
    · split
      · exact hcontainer
      · exact hall
    · exact .pure
    · split
      · exact .pure
      · exact hall
    · exact hall

theorem quiet_editsAll (s : Setting) : ∀ ns, Quiet (editsAll s ns)
  | [] => .pure
  | n :: rest => (quiet_edits s n).append (quiet_editsAll s rest)

theorem quiet_containerEdits (s : Setting) : ∀ ns, Quiet (containerEdits s ns)
  | [] => .pure
  | e :: rest => by
    have hfirst := quiet_edits s e
    rw [containerEdits]
    split
    · exact fun h => absurd h (List.cons_ne_nil _ _)
    · exact hfirst.append (quiet_editsAll s rest)

theorem quiet_effectEdits (s : Setting) : ∀ ns, Quiet (effectEdits s ns)
  | [] => .pure
  | [callee] => quiet_edits s callee
  | callee :: .mk label span parts :: rest => by
    have hcallee := quiet_edits s callee
    have hargument := quiet_edits s (.mk label span parts)
    have hrest := quiet_editsAll s rest
    rw [effectEdits]
    cases isCallback label with
    | true =>
      intro h
      simp at h
    | false =>
      intro h
      simp only [Bool.false_eq_true, if_false, Draft.value_bind, Draft.value_pure,
        List.append_eq_nil_iff] at h
      simp [hcallee h.1.1, hargument h.1.2, hrest h.2]

end

def helperNames (options : Options) (helpers : Helpers) : List String :=
  (if helpers.peek then [options.peekName] else []) ++
    (if helpers.adapter then [options.adapterName] else [])

/-- The text that comes in for some helpers: a line of its own. -/
def importLine (options : Options) (program : Program) (helpers : Helpers) : List Char :=
  let line := ("import \x7b " ++ ", ".intercalate (helperNames options helpers) ++ " \x7d from \"" ++
    options.runtimeModule ++ "\";").toList
  if program.directives = [] ∧ program.hashbang = none then line ++ ['\n'] else '\n' :: line

/-- The text of a unit without the import of the helpers, and with it.

* `emitted`: the text is that of the plan, or the unit as given, and then nothing is bound in the plan
* `called`: each binding in the text calls the helper of its kind
* `behind`: what stands in front of the import: all directives, or else the first line if that addresses
  the system
* `absent`: there is no import if nothing is bound
* `present`: otherwise there is one, which names the helpers that are called, and all else is the same -/
structure HelpersImported (options : Options) (source text : List Char) (program : Program)
    (plan : List Piece) (off on : List Char) : Prop where
  emitted : off = render text plan ∨ off = source ∧ bindings plan = []
  called : ∀ binding helper, .binds binding helper ∈ plan → helper = options.helper binding
  behind : (∀ d ∈ program.directives, d.stop ≤ importOffset program) ∧
    (program.directives = [] → importOffset program = (program.hashbang.map Span.stop).getD 0)
  absent : (∀ binding helper, .binds binding helper ∉ plan) → on = off
  present : ∀ binding helper, .binds binding helper ∈ plan → ∃ helpers rest,
    (helpers.peek = true ↔ ∃ name origin, .binds (.copy name origin) options.peekName ∈ plan) ∧
    (helpers.adapter = true ↔ ∃ name, .binds (.tag name) options.adapterName ∈ plan) ∧
    off = Text.slice text ⟨0, importOffset program⟩ ++ rest ∧
    on = Text.slice text ⟨0, importOffset program⟩ ++ importLine options program helpers ++ rest

theorem importText_eq {options : Options} {helpers : Helpers}
    (h : helpers.peek = true ∨ helpers.adapter = true) :
    importText options program helpers = importLine options program helpers := by
  have hnames : (helperNames options helpers).isEmpty = false := by
    rcases h with h | h <;> simp [helperNames, h]
  have hline : helperImport? options helpers = some ("import \x7b " ++
      ", ".intercalate (helperNames options helpers) ++ " \x7d from \"" ++ options.runtimeModule ++
      "\";").toList := by
    rw [helperImport?]
    exact if_neg (by simpa [helperNames] using hnames)
  rw [importText, hline]
  unfold importLine importEdit
  rcases hd : program.directives.getLast? with _ | d
  · obtain hd := List.getLast?_eq_none_iff.1 hd
    cases hh : program.hashbang <;> simp [hd]
  · have hne : program.directives ≠ [] := by
      rintro hnil
      simp [hnil] at hd
    simp [hne]

theorem importText_none {options : Options} {helpers : Helpers} (hpeek : helpers.peek = false)
    (hadapter : helpers.adapter = false) : importText options program helpers = [] := by
  simp [importText, helperImport?, hpeek, hadapter]

theorem Sound.behind {text : List Char} (h : Sound text program) :
    (∀ d ∈ program.directives, d.stop ≤ importOffset program) ∧
      (program.directives = [] → importOffset program = (program.hashbang.map Span.stop).getD 0) := by
  constructor
  · intro d hd
    obtain ⟨front, last, hlast⟩ := List.eq_nil_or_concat program.directives |>.resolve_left
      (List.ne_nil_of_mem hd)
    have hoffset : importOffset program = last.stop := by
      simp [importOffset, hlast]
    rw [hoffset]
    have hpairwise := h.directives
    rw [hlast, List.concat_eq_append, List.pairwise_append] at hpairwise
    rw [hlast, List.concat_eq_append, List.mem_append, List.mem_singleton] at hd
    rcases hd with hd | rfl
    · exact hpairwise.2.2 d hd last (List.mem_singleton_self _)
    · exact Nat.le_refl _
  · intro hnil
    cases hh : program.hashbang <;> simp [importOffset, hnil, hh]

end Transform

open Transform

def Transformer.asking (t : Transformer) (asked : Bool) : Transformer :=
  { t with options := { t.options with injectRuntimeImport := asked } }

theorem transform_asking (t : Transformer) {parse : Parser} {path : Option String} {source : List Char}
    (hparse : parse path (named t.options source).1.text = some program)
    (hsound : Sound (named t.options source).1.text program) (asked : Bool) :
    let unit := named t.options source
    let s := setting t.options (addAliases t.options program .empty) unit.1.text unit.2
    ((t.asking asked).transform path source parse).1 =
      .ok (if (editsAll s program.statements).value = [] then source
        else output (t.asking asked).options program unit.1.text
          (editsAll (s.importing asked) program.statements)) := by
  intro unit s
  obtain ⟨stop, hplaced, -⟩ := hsound.placed
  have horder := (laid_all (s.importing asked) program.statements hplaced).inOrder
  have hempty : (EditList.ofEdits (editsAll (s.importing asked) program.statements).value).isEmpty =
      true ↔ (editsAll s program.statements).value = [] := by
    rw [EditList.ofEdits_inOrder horder, ← editsAll_importing s asked]
    exact List.isEmpty_iff
  have hparse' : parse path (named (t.asking asked).options source).1.text = some program := hparse
  have hframe : (onFrame parse (t.asking asked).options path source .empty).1 =
      .ok (if (EditList.ofEdits (editsAll (s.importing asked) program.statements).value).isEmpty
        then source else output (t.asking asked).options program unit.1.text
          (editsAll (s.importing asked) program.statements)) := by
    simp only [onFrame, hparse']
    split
    · rename_i h
      exact congrArg Except.ok (if_pos h).symm
    · rename_i h
      exact congrArg Except.ok (if_neg h).symm
  simp only [hempty] at hframe
  exact hframe

namespace Transform.HelpersImported

variable {options : Options} {source text : List Char} {plan : List Piece} {off on rest : List Char}

theorem of_unbound (hbound : bindings plan = [])
    (hcalled : ∀ binding helper, .binds binding helper ∈ plan → helper = options.helper binding)
    (hsound : Sound text program) :
    HelpersImported options source text program plan source source := by
  have habsent (binding : Generated) (helper : String) : .binds binding helper ∉ plan := by
    intro hmem
    have hcall : (binding, helper) ∈ bindings plan := mem_bindings.2 hmem
    rw [hbound] at hcall
    cases hcall
  exact ⟨.inr ⟨rfl, hbound⟩, hcalled, hsound.behind, fun _ => rfl,
    fun binding helper hmem => absurd hmem (habsent binding helper)⟩

theorem of_split (hplan : render text plan = off)
    (hcalled : ∀ binding helper, .binds binding helper ∈ plan → helper = options.helper binding)
    (hsound : Sound text program)
    (hoff : off = Text.slice text ⟨0, importOffset program⟩ ++ rest)
    (hon : on = Text.slice text ⟨0, importOffset program⟩ ++
      importText options program (helpersIn plan) ++ rest) :
    HelpersImported options source text program plan off on := by
  have hpeek : (helpersIn plan).peek = true ↔ _ := peek_helpersIn
  have hadapter : (helpersIn plan).adapter = true ↔ _ := adapter_helpersIn
  refine ⟨.inl hplan.symm, hcalled, hsound.behind, fun habsent => ?_, fun binding helper hmem => ?_⟩
  · have hnone : importText options program (helpersIn plan) = [] := by
      refine importText_none (Bool.eq_false_iff.2 fun h => ?_) (Bool.eq_false_iff.2 fun h => ?_)
      · obtain ⟨name, origin, helper, hmem⟩ := hpeek.1 h
        exact habsent _ _ hmem
      · obtain ⟨name, helper, hmem⟩ := hadapter.1 h
        exact habsent _ _ hmem
    refine hon.trans (Eq.trans ?_ hoff.symm)
    rw [hnone, List.append_nil]
  · refine ⟨helpersIn plan, rest, hpeek.trans ⟨?_, ?_⟩, hadapter.trans ⟨?_, ?_⟩, hoff, hon.trans ?_⟩
    · rintro ⟨name, origin, helper, hmem⟩
      obtain rfl : helper = options.peekName := hcalled _ _ hmem
      exact ⟨name, origin, hmem⟩
    · rintro ⟨name, origin, hmem⟩
      exact ⟨name, origin, _, hmem⟩
    · rintro ⟨name, helper, hmem⟩
      obtain rfl : helper = options.adapterName := hcalled _ _ hmem
      exact ⟨name, hmem⟩
    · rintro ⟨name, hmem⟩
      exact ⟨name, _, hmem⟩
    · rw [importText_eq]
      cases binding with
      | copy name origin => exact .inl (hpeek.2 ⟨name, origin, helper, hmem⟩)
      | tag name => exact .inr (hadapter.2 ⟨name, helper, hmem⟩)

end Transform.HelpersImported

/-- Of every unit, whatever reads it, the text with the import of the helpers is the text without it, and
one line where it belongs for the helpers that are called in the text; none if none is. -/
theorem helpers_imported (parse : Parser) (t : Transformer) (path : Option String) (source : List Char)
    {program : Program} (hparse : parse path (named t.options source).1.text = some program)
    (hsound : Sound (named t.options source).1.text program) :
    let unit := named t.options source
    let s := setting t.options (addAliases t.options program .empty) unit.1.text unit.2
    ∃ off on, ((t.asking false).transform path source parse).1 = .ok off ∧
      ((t.asking true).transform path source parse).1 = .ok on ∧
      HelpersImported t.options source unit.1.text program (unitPlan s program) off on := by
  intro unit s
  have hanswer := transform_asking t hparse hsound
  obtain ⟨hcalled, rest, hplan, hoff, hon⟩ :=
    output_imported t.options (addAliases t.options program .empty) unit.2 hsound
  by_cases hempty : (editsAll s program.statements).value = []
  · -- A unit without edits is answered as it was given, and nothing is bound in it.
    have hbound := bindings_unitPlan (s := s) hsound.complete
    rw [quiet_editsAll s _ hempty] at hbound
    exact ⟨source, source, (hanswer false).trans (congrArg Except.ok (if_pos hempty)),
      (hanswer true).trans (congrArg Except.ok (if_pos hempty)), .of_unbound hbound.eq_nil hcalled hsound⟩
  · exact ⟨_, _, (hanswer false).trans (congrArg Except.ok (if_neg hempty)),
      (hanswer true).trans (congrArg Except.ok (if_neg hempty)),
      .of_split (hplan.trans hoff.symm) hcalled hsound hoff hon⟩

/-- A unit with a directive, an effect that reads a name, and an element whose tag is worked out. -/
def helped : List Char :=
  ("\"use client\";import\x7bcreateElement as h,useEffect\x7dfrom\"react\";" ++
    "useEffect(()=>x);h(a?b:c)").toList

theorem helpers_imported_both : ∃ program off on,
    Program.parser none (named {} helped).1.text = some program ∧
    Sound (named {} helped).1.text program ∧
    let s := setting {} (addAliases {} program .empty) (named {} helped).1.text (named {} helped).2
    HelpersImported {} helped (named {} helped).1.text program (unitPlan s program) off on ∧
    .binds (.copy "x_" "x") "__peek" ∈ unitPlan s program ∧
    .binds (.tag "TempCls") "__adapt" ∈ unitPlan s program := by
  have hparse : (Program.parser none (named {} helped).1.text).any (fun program =>
      let s := setting {} (addAliases {} program .empty) (named {} helped).1.text (named {} helped).2
      Sound (named {} helped).1.text program ∧
        .binds (.copy "x_" "x") "__peek" ∈ unitPlan s program ∧
        .binds (.tag "TempCls") "__adapt" ∈ unitPlan s program) = true := by
    decide +kernel
  obtain ⟨program, hparse, hunit⟩ := (Option.any_eq_true _ _).1 hparse
  obtain ⟨hsound, hcopy, htag⟩ := of_decide_eq_true hunit
  obtain ⟨off, on, -, -, himported⟩ :=
    helpers_imported Program.parser (.ofOptions {}) none helped hparse hsound
  exact ⟨program, off, on, hparse, hsound, himported, hcopy, htag⟩

end FineGrain
