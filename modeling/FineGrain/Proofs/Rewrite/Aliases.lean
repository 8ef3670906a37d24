import FineGrain.Transform
/-!
The alias frame of a unit. A name stands in it in some role exactly if a statement of the unit imports
it in that role, as a value and from a module of the framework.
-/

namespace FineGrain

open Grammar

namespace AliasFrame

variable {frame : AliasFrame} {role r : AliasRole} {name n : String}

theorem has_iff : frame.has role name = true ↔ (role, name) ∈ frame.aliases := List.contains_iff_mem

theorem has_add :
    (frame.add r n).has role name = true ↔ frame.has role name = true ∨ role = r ∧ name = n := by
  unfold add
  split
  · rename_i h
    refine ⟨.inl, fun hadd => hadd.elim id ?_⟩
    rintro ⟨rfl, rfl⟩
    exact h
  · simp [has_iff]

@[simp] theorem imported_add : (frame.add r n).imported = frame.imported := by
  unfold add
  split <;> rfl

theorem isAlias_iff : frame.isAlias name = true ↔ ∃ role, frame.has role name = true := by
  simp only [isAlias, List.any_eq_true, beq_iff_eq, has_iff]
  constructor
  · rintro ⟨⟨role, _⟩, hmem, rfl⟩
    exact ⟨role, hmem⟩
  · rintro ⟨role, hmem⟩
    exact ⟨(role, name), hmem, rfl⟩

end AliasFrame

namespace Transform

variable {options : Options} {program : Program} {frame : AliasFrame} {role : AliasRole} {name : String}

/-- What a statement imports from a module of the framework, unless it concerns types alone. -/
def frameworkImport? (options : Options) (statement : Node) : Option Import :=
  match statement.label with
  | .imports declared =>
      if declared.typeOnly || !options.isSource declared.source then none else some declared
  | _ => none

/-- What an imported name stands for: the role of what it imports, and the local name. -/
def standsFor? : Imported → Option (AliasRole × String)
  | .default binding | .namespace binding => some (.root, binding)
  | .named name binding typeOnly => if typeOnly then none else (roleOf? name).map (·, binding)

/-- A unit imports a name in some role. -/
def Imports (options : Options) (program : Program) (role : AliasRole) (name : String) : Prop :=
  ∃ statement ∈ program.statements, ∃ declared, frameworkImport? options statement = some declared ∧
    ∃ i ∈ declared.names, standsFor? i = some (role, name)

theorem addImported_eq (frame : AliasFrame) (i : Imported) :
    addImported frame i =
      match standsFor? i with
      | some (role, binding) => frame.add role binding
      | none => frame := by
  cases i with
  | named name binding typeOnly =>
    cases typeOnly
    · simp only [addImported, standsFor?]
      cases roleOf? name <;> rfl
    · rfl
  | _ => rfl

theorem addStatement_eq (statement : Node) :
    addStatement options frame statement =
      match frameworkImport? options statement with
      | some declared => declared.names.foldl addImported frame.markImported
      | none => frame := by
  unfold addStatement frameworkImport?
  cases statement.label with
  | imports declared => dsimp only; split <;> rfl
  | _ => rfl

theorem addAliases_of_not_imports
    (h : ∀ statement ∈ program.statements, frameworkImport? options statement = none) :
    addAliases options program frame = frame := by
  unfold addAliases
  revert h
  induction program.statements with
  | nil => exact fun _ => rfl
  | cons statement rest ih =>
    intro h
    rw [List.foldl_cons, addStatement_eq, h statement List.mem_cons_self]
    exact ih fun later hlater => h later (List.mem_cons_of_mem _ hlater)

end Transform

end FineGrain
