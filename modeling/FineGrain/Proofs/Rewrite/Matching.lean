import FineGrain.Proofs.Lexical.Resolution
import FineGrain.Proofs.Rewrite.Aliases
/-!
What is taken for the framework's own. Calls, tags and variables are matched by name: by the names that
the unit imports. Each of them is declared in the outermost scope of the unit, so what is matched is
what has been imported, or else something nearer that is declared under the same name.
-/

namespace FineGrain

open Grammar Lexical Rewrite

theorem Transform.binding_of_standsFor {i : Imported} {role : AliasRole} {name : String}
    (h : Transform.standsFor? i = some (role, name)) : i.binding = name := by
  cases i with
  | named _ binding typeOnly =>
    cases typeOnly
    · obtain ⟨r, -, hr⟩ := Option.map_eq_some_iff.1 h
      exact (Prod.ext_iff.1 hr).2
    · cases h
  | _ => exact (Prod.ext_iff.1 (Option.some.inj h)).2

namespace Transform

variable {options : Options} {program : Program} {role : AliasRole} {members : List String}
  {s : Setting}

theorem Imports.declaration {name : String} (h : Imports options program role name) :
    ∃ statement ∈ program.statements, ∃ d i, statement.label = .imports d ∧ i ∈ d.names ∧
      i.binding = name := by
  obtain ⟨statement, hmem, d, hd, i, hi, hstands⟩ := h
  refine ⟨statement, hmem, d, i, ?_, hi, binding_of_standsFor hstands⟩
  unfold frameworkImport? at hd
  split at hd
  · split at hd
    · cases hd
    · rename_i hlabel _
      rwa [Option.some.inj hd] at hlabel
  · cases hd

end Transform

open Transform

end FineGrain
