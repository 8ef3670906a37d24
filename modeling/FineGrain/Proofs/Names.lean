import FineGrain.Names
import Mathlib.Data.List.Infix
import Mathlib.Data.List.Perm.Subperm
import Mathlib.Data.List.Nodup
/-!
Generated names are free. A candidate longer than the text cannot occur in it, and no more candidates
can be taken than there are taken names, so the search for a free one ends before its bound. What is
handed out is taken from then on.
-/

namespace FineGrain

variable {part text visible : List Char} {names : Names} {base name : String} {n m : Nat}

theorem Text.occurs_iff : Text.occurs part text = true ↔ part <:+: text := by
  induction text with
  | nil => simp [occurs]
  | cons c rest ih => rw [occurs, Bool.or_eq_true, ih, List.infix_cons_iff, List.isPrefixOf_iff_prefix]

namespace Names

theorem toList_candidate : (candidate base n).toList = base.toList ++ List.replicate n '_' := by
  simp [candidate]

theorem candidate_injective (base : String) : Function.Injective (candidate base) := by
  intro n m h
  have hlength := congrArg (fun name => name.toList.length) h
  simpa [toList_candidate] using hlength

theorem isFree_iff : names.isFree visible name = true ↔
    ¬ name.toList <:+: visible ∧ name ∉ names.taken := by
  rw [isFree, Bool.and_eq_true, Bool.not_eq_true', ← Bool.not_eq_true, Text.occurs_iff]
  simp

theorem not_occurs_of_lt (h : visible.length < n) : ¬ (candidate base n).toList <:+: visible := by
  intro hin
  have hlength := hin.length_le
  rw [toList_candidate, List.length_append, List.length_replicate] at hlength
  omega

/-- Among the candidates longer than the text there are more than there are taken names. -/
theorem exists_isFree (names : Names) (base : String) (visible : List Char) :
    ∃ n < visible.length + names.taken.length + 2, names.isFree visible (candidate base n) = true := by
  by_contra hnone
  have htaken : ∀ i < names.taken.length + 1,
      candidate base (visible.length + 1 + i) ∈ names.taken := by
    intro i hi
    by_contra hfree
    refine hnone ⟨visible.length + 1 + i, by omega, isFree_iff.2 ⟨?_, hfree⟩⟩
    exact not_occurs_of_lt (by omega)
  let long := (List.range (names.taken.length + 1)).map
    fun i => candidate base (visible.length + 1 + i)
  have hnodup : long.Nodup := by
    refine List.nodup_range.map ?_
    intro i j hij
    have hsum := candidate_injective base hij
    omega
  have hsubset : long ⊆ names.taken := by
    intro name hname
    obtain ⟨i, hi, rfl⟩ := List.mem_map.1 hname
    exact htaken i (List.mem_range.1 hi)
  have hlength := (List.subperm_of_subset hnodup hsubset).length_le
  rw [List.length_map, List.length_range] at hlength
  omega

theorem fresh_least (names : Names) (base : String) (visible : List Char) :
    ∃ n, names.fresh base visible = candidate base n ∧
      names.isFree visible (candidate base n) = true ∧
      ∀ m < n, names.isFree visible (candidate base m) = false := by
  obtain ⟨n, hn, hfree⟩ := exists_isFree names base visible
  rw [fresh]
  split
  next m hm =>
    obtain ⟨hfound, -, hbefore⟩ := List.find?_range_eq_some.1 hm
    exact ⟨m, rfl, hfound, fun i hi => by simpa using hbefore i hi⟩
  next hnone =>
    have hall := List.find?_eq_none.1 hnone n (List.mem_range.2 hn)
    exact absurd hfree hall

theorem fresh_spec (names : Names) (base : String) (visible : List Char) :
    (∃ n, names.fresh base visible = candidate base n) ∧
      names.isFree visible (names.fresh base visible) = true := by
  obtain ⟨n, hn, hfree, -⟩ := fresh_least names base visible
  exact ⟨⟨n, hn⟩, hn ▸ hfree⟩

theorem mem_taken_record (hscope : names.scopes ≠ []) {other : String} :
    other ∈ (names.record name).taken ↔ other = name ∨ other ∈ names.taken := by
  obtain ⟨reserved, scopes⟩ := names
  cases scopes with
  | nil => exact absurd rfl hscope
  | cons scope outer =>
    simp only [record, taken, List.flatten_cons, List.cons_append, List.mem_append, List.mem_cons]
    tauto

theorem scopes_record (hscope : names.scopes ≠ []) : (names.record name).scopes ≠ [] := by
  obtain ⟨reserved, scopes⟩ := names
  cases scopes with
  | nil => exact absurd rfl hscope
  | cons scope outer => exact List.cons_ne_nil _ _

@[simp] theorem taken_pushScope (names : Names) : names.pushScope.taken = names.taken := rfl

theorem scopes_pushScope (names : Names) : names.pushScope.scopes ≠ [] := List.cons_ne_nil _ _

/-- Names handed out one after another for use inside a text: they occur nowhere in it, none of them
is handed out twice or was taken before, and all of them are taken from then on. -/
structure Handed (visible : List Char) (names : Names) (given : List String) (after : Names) : Prop where
  apart : ∀ name ∈ given, ¬ name.toList <:+: visible ∧ name ∉ names.taken
  nodup : given.Nodup
  taken : ∀ name, name ∈ after.taken ↔ name ∈ given ∨ name ∈ names.taken
  scopes : after.scopes ≠ []

namespace Handed

variable {given : List String} {after : Names}

theorem nil (hscope : names.scopes ≠ []) : Handed visible names [] names where
  apart := by simp
  nodup := .nil
  taken := by simp
  scopes := hscope

theorem cons (hscope : names.scopes ≠ [])
    (h : Handed visible (names.record (names.fresh base visible)) given after) :
    Handed visible names (names.fresh base visible :: given) after := by
  obtain ⟨-, hfree⟩ := names.fresh_spec base visible
  have hnow (name : String) : name ∈ (names.record (names.fresh base visible)).taken ↔
      name = names.fresh base visible ∨ name ∈ names.taken := mem_taken_record hscope
  constructor
  · refine List.forall_mem_cons.2 ⟨Names.isFree_iff.1 hfree, fun name hname => ?_⟩
    obtain ⟨habsent, htaken⟩ := h.apart name hname
    rw [hnow, not_or] at htaken
    exact ⟨habsent, htaken.2⟩
  · refine List.nodup_cons.2 ⟨fun hmem => ?_, h.nodup⟩
    exact (h.apart _ hmem).2 ((hnow _).2 (.inl rfl))
  · intro name
    rw [h.taken, hnow, List.mem_cons]
    tauto
  · exact h.scopes

theorem one (hscope : names.scopes ≠ []) :
    Handed visible names [names.fresh base visible] (names.record (names.fresh base visible)) :=
  .cons hscope (.nil (scopes_record hscope))

theorem of_pushScope (h : Handed visible names.pushScope given after) :
    Handed visible names given after :=
  ⟨h.apart, h.nodup, h.taken, h.scopes⟩

end Handed

end Names

end FineGrain
