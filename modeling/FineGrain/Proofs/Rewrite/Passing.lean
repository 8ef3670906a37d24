import FineGrain.Proofs.Rewrite.Aliases
/-!
Units that do not import the framework pass through. Without aliases no call is an element or registers
an effect, without the import no expression in markup is deferred, and without callbacks no reference
reads a copy; so no construct calls for an edit, and what is answered is what was given.
-/

namespace FineGrain

open Grammar Rewrite

/-- Nothing is known of the framework, and no reference reads a copy. -/
structure Setting.Bare (s : Setting) : Prop where
  frame : s.frame = .empty
  renames : s.renames = []

namespace Setting.Bare

variable {s : Setting}

theorem imported (h : s.Bare) : s.frame.imported = false := by rw [h.frame]; rfl

theorem rename? (h : s.Bare) (start : Nat) : s.rename? start = none := by
  rw [Setting.rename?, h.renames]
  rfl

theorem has (h : s.Bare) (role : AliasRole) (name : String) : s.frame.has role name = false := by
  rw [h.frame]
  rfl

theorem rootMember? (h : s.Bare) (e : Node) : s.rootMember? e = none := by
  unfold Setting.rootMember?
  split
  · split
    · rw [h.has]
      rfl
    · rfl
  · rfl

theorem isFactory (h : s.Bare) (callee : Node) : s.isFactory callee = false := by
  unfold Setting.isFactory
  split
  · exact h.has _ _
  · rw [h.rootMember?]
    rfl

theorem isEffect (h : s.Bare) (callee : Node) : s.isEffect callee = false := by
  unfold Setting.isEffect
  split
  · exact h.has _ _
  · rw [h.rootMember?]
    rfl

theorem element? (h : s.Bare) (call : Span) (parts : List Node) : element? s call parts = none := by
  unfold Rewrite.element?
  split
  · rw [h.isFactory]
  · rfl

theorem shorthandRename? (h : s.Bare) (parts : List Node) : shorthandRename? s parts = none := by
  unfold Rewrite.shorthandRename?
  split
  · rw [h.rename?]
    rfl
  · rfl

mutual

theorem edits (h : s.Bare) : ∀ n, edits s n = pure []
  | .mk label span parts => by
    have hparts := h.editsAll parts
    cases label with
    | reference name =>
      rw [Rewrite.edits, h.rename?]
      rfl
    | call =>
      have heffect : parts.head?.any s.isEffect = false := by
        cases parts <;> simp [h.isEffect]
      simp only [Rewrite.edits, h.element?, heffect, hparts]
      rfl
    | container => simp only [Rewrite.edits, h.imported, hparts, Bool.false_eq_true, if_false]
    | property form computed =>
      cases form <;> simp only [Rewrite.edits, h.shorthandRename?, hparts]
    | _ => exact hparts

theorem editsAll (h : s.Bare) : ∀ l, editsAll s l = pure []
  | [] => rfl
  | n :: rest => by
    rw [Rewrite.editsAll, h.edits n, h.editsAll rest]
    rfl

end

end Setting.Bare

open Transform

/-- A unit that does not import values from the framework passes through: whatever the options, the
path and the text, and whatever reads the unit, if what naming its anonymous functions makes of it
parses, it is answered just as given, and the transformer is as it was. -/
theorem passes_through (parse : Parser) (t : Transformer) (path : Option String) (source : List Char)
    {program : Program} (hparse : parse path (named t.options source).1.text = some program)
    (himports : ∀ statement ∈ program.statements, frameworkImport? t.options statement = none) :
    t.transform path source parse = (.ok source, t) := by
  have hbare : (setting t.options .empty (named t.options source).1.text
      (named t.options source).2).Bare := ⟨rfl, rfl⟩
  have hframe : onFrame parse t.options path source .empty = (.ok source, .empty) := by
    simp only [onFrame, hparse, addAliases_of_not_imports himports, hbare.editsAll]
    rfl
  have hwithin : t.aliases.within (onFrame parse t.options path source) = (.ok source, t.aliases) := by
    simp only [AliasStack.within, AliasStack.top?, List.head?_cons, List.tail_cons, hframe]
  rw [Transformer.transform, hwithin]

/-- A unit with an anonymous function, markup, and calls of functions that are named like those of the
framework. -/
theorem passes_through_lookalikes :
    let t := Transformer.ofOptions {}
    let source :=
      ("import\x7bcreateElement\x7dfrom\"other\";" ++
        "useEffect(function()\x7bcreateElement(<p>\x7ba+b\x7d</p>)\x7d)").toList
    (named t.options source).1.text ≠ source ∧ t.transform none source = (.ok source, t) := by
  intro t source
  have himports : (Program.parser none (named t.options source).1.text).any (fun program =>
      ∀ statement ∈ program.statements, frameworkImport? t.options statement = none) = true := by
    decide +kernel
  obtain ⟨program, hparse, himports⟩ := (Option.any_eq_true _ _).1 himports
  exact ⟨by decide +kernel,
    passes_through Program.parser t none source hparse (of_decide_eq_true himports)⟩

end FineGrain
