import FineGrain.Files.Disk
import Mathlib.Data.List.Infix
import Mathlib.Logic.Function.Basic
/-!
What is at the locations of a tree of files, and what putting and removing files does to it. A directory
is looked at without its entries, which have locations of their own.
-/

namespace FineGrain

/-- What stands at a location. -/
inductive Look where
  | file (content : Content)
  | link (target : String)
  | directory
deriving DecidableEq, Repr

namespace Tree

variable {t : Tree} {entries : Entries} {name : String} {location parent : List String}

def look : Tree → Look
  | .file content => .file content
  | .link target => .link target
  | .directory _ => .directory

/-- What is at a location, if anything is. -/
def at? (t : Tree) (location : List String) : Option Look := (t.find? location).map look

theorem look_eq_directory : t.look = .directory ↔ ∃ entries, t = .directory entries := by
  cases t <;> simp [look]

theorem at?_eq_directory :
    t.at? location = some .directory ↔ ∃ entries, t.find? location = some (.directory entries) := by
  simp only [at?, Option.map_eq_some_iff, look_eq_directory]
  exact ⟨fun ⟨_, h, es, he⟩ => ⟨es, by rw [h, he]⟩, fun ⟨es, h⟩ => ⟨_, h, es, rfl⟩⟩

theorem at?_eq_file {content : Content} :
    t.at? location = some (.file content) ↔ t.find? location = some (.file content) := by
  rw [at?, Option.map_eq_some_iff]
  constructor
  · rintro ⟨_ | _ | _, h, hlook⟩ <;> cases hlook
    exact h
  · exact fun h => ⟨_, h, rfl⟩

theorem find?_append (t : Tree) (parent rest : List String) :
    t.find? (parent ++ rest) = (t.find? parent).bind (find? · rest) := by
  induction parent generalizing t with
  | nil => cases t <;> rfl
  | cons name parent ih =>
    cases t with
    | directory entries =>
      rw [List.cons_append, find?, find?, Option.bind_assoc]
      exact congrArg _ (funext fun t => ih t)
    | _ => rfl

theorem find?_below (h : ∀ entries, t ≠ .directory entries) (hbelow : location ≠ []) :
    t.find? location = none := by
  cases location with
  | nil => exact absurd rfl hbelow
  | cons name rest =>
    cases t with
    | directory entries => exact absurd rfl (h entries)
    | _ => rfl

theorem at?_above (hsome : t.at? (parent ++ location) ≠ none) (hbelow : location ≠ []) :
    t.at? parent = some .directory := by
  rw [at?_eq_directory]
  rw [at?, find?_append] at hsome
  cases hparent : t.find? parent with
  | none =>
    rw [hparent] at hsome
    exact absurd rfl hsome
  | some above =>
    rw [hparent] at hsome
    by_cases hdirectory : ∃ entries, above = .directory entries
    · obtain ⟨entries, rfl⟩ := hdirectory
      exact ⟨entries, rfl⟩
    · refine absurd ?_ hsome
      rw [Option.bind_some, find?_below (fun entries he => hdirectory ⟨entries, he⟩) hbelow]
      rfl

theorem get?_cons (n : String) (t : Tree) (entries : Entries) (other : String) :
    get? ((n, t) :: entries) other = if other = n then some t else get? entries other := by
  by_cases h : other = n
  · simp [get?, h]
  · simp [get?, List.lookup_cons, beq_false_of_ne h, h]

theorem get?_put (entries : Entries) (name : String) (item : Tree) (other : String) :
    get? (put name item entries) other = if other = name then some item else get? entries other := by
  induction entries with
  | nil => exact get?_cons name item [] other
  | cons entry rest ih =>
    obtain ⟨n, t⟩ := entry
    rw [put, get?_cons]
    by_cases hn : n = name
    · by_cases h : other = name <;> simp [hn, h, get?_cons]
    · by_cases h : other = n
      · simp [h, hn, get?_cons]
      · simp [h, hn, get?_cons, ih]

theorem get?_filter (entries : Entries) (name other : String) :
    get? (entries.filter (·.1 != name)) other = if other = name then none else get? entries other := by
  induction entries with
  | nil => exact (ite_self none).symm
  | cons entry rest ih =>
    obtain ⟨n, t⟩ := entry
    rw [List.filter_cons, get?_cons]
    by_cases hn : n = name
    · by_cases h : other = name
      · simpa [hn, h] using ih
      · simp [hn, h, ih]
    · by_cases h : other = n
      · simp [h, hn, get?_cons]
      · simp [h, hn, get?_cons, ih]

variable {change : Entries → Entries}

theorem find?_changeAt (h : t.find? parent = some (.directory entries)) (rest : List String) :
    (changeAt change parent t).find? (parent ++ rest) = (Tree.directory (change entries)).find? rest := by
  induction parent generalizing t with
  | nil =>
    cases h
    rfl
  | cons name parent ih =>
    cases t with
    | directory es =>
      cases hname : get? es name with
      | none =>
        rw [find?, hname] at h
        cases h
      | some sub =>
        rw [find?, hname] at h
        simp only [changeAt, hname, List.cons_append, find?, get?_put, if_true, Option.bind_some]
        exact ih h
    | _ => cases h

theorem at?_changeAt_other (h : t.at? parent = some .directory)
    (hother : ∀ name rest, location ≠ parent ++ name :: rest) :
    (changeAt change parent t).at? location = t.at? location := by
  induction parent generalizing t location with
  | nil =>
    obtain ⟨entries, ht⟩ := at?_eq_directory.1 h
    cases ht
    cases location with
    | nil => rfl
    | cons name rest => exact absurd rfl (hother name rest)
  | cons name parent ih =>
    obtain ⟨entries, hfind⟩ := at?_eq_directory.1 h
    cases t with
    | directory es =>
      cases hname : get? es name with
      | none =>
        rw [find?, hname] at hfind
        cases hfind
      | some sub =>
        rw [find?, hname] at hfind
        rw [changeAt, hname]
        cases location with
        | nil => rfl
        | cons n rest =>
          by_cases hn : n = name
          · subst hn
            have hsub := ih (at?_eq_directory.2 ⟨entries, hfind⟩)
              fun m r heq => hother m r (congrArg (n :: ·) heq)
            simpa [at?, find?, get?_put, hname] using hsub
          · simp [at?, find?, get?_put, hn]
    | _ => cases hfind

theorem at?_changeAt (item : Option Tree) (hparent : t.at? parent = some .directory)
    (hold : t.at? (parent ++ [name]) ≠ some .directory)
    (hnew : ∀ rest, rest ≠ [] → item.bind (find? · rest) = none)
    (hchange : ∀ entries other, get? (change entries) other =
      if other = name then item else get? entries other)
    (location : List String) : (changeAt change parent t).at? location =
      if location = parent ++ [name] then item.map look else t.at? location := by
  obtain ⟨entries, hfind⟩ := at?_eq_directory.1 hparent
  -- Only what is below the parent can change, and there only the entry of that name.
  by_cases hlocation : ∃ other rest, location = parent ++ other :: rest
  · obtain ⟨other, rest, rfl⟩ := hlocation
    have hlook : (changeAt change parent t).at? (parent ++ other :: rest) =
        (((if other = name then item else get? entries other).bind (find? · rest)).map look) := by
      rw [at?, find?_changeAt hfind, find?, hchange]
    have hbefore : t.at? (parent ++ other :: rest) =
        ((get? entries other).bind (find? · rest)).map look := by
      rw [at?, find?_append, hfind]
      rfl
    rw [hlook, hbefore]
    by_cases hname : other = name
    · subst hname
      cases rest with
      | nil => cases item <;> simp [find?]
      | cons n rest =>
        have hentry : (get? entries other).bind (find? · (n :: rest)) = none := by
          have hbelow := find?_append t (parent ++ [other]) (n :: rest)
          rw [List.append_assoc, find?_append, hfind] at hbelow
          refine hbelow.trans ?_
          cases hsub : t.find? (parent ++ [other]) with
          | none => rfl
          | some sub =>
            exact find?_below (fun es he => hold (by rw [at?, hsub, he]; rfl)) (List.cons_ne_nil _ _)
        rw [if_pos rfl, if_neg (by simp), hnew _ (List.cons_ne_nil _ _), hentry]
    · rw [if_neg hname, if_neg (by simp [hname])]
  · have hother (other : String) (rest : List String) : location ≠ parent ++ other :: rest :=
      fun heq => hlocation ⟨other, rest, heq⟩
    rw [at?_changeAt_other hparent hother, if_neg (hother name [])]

theorem at?_place {item : Tree} (hitem : ∀ rest, rest ≠ [] → item.find? rest = none)
    (hparent : t.at? parent = some .directory) (hold : t.at? (parent ++ [name]) ≠ some .directory) :
    (t.place (parent ++ [name]) item).at? =
      Function.update t.at? (parent ++ [name]) (some item.look) := by
  funext location
  rw [place, List.getLast?_concat, List.dropLast_concat, Function.update_apply]
  exact at?_changeAt (some item) hparent hold hitem
    (fun entries other => get?_put entries name item other) location

theorem find?_file (content : Content) {rest : List String} (h : rest ≠ []) :
    (Tree.file content).find? rest = none := find?_below nofun h

theorem find?_empty {rest : List String} (h : rest ≠ []) : (Tree.directory []).find? rest = none := by
  cases rest with
  | nil => exact absurd rfl h
  | cons name rest => rfl

theorem at?_removeAt (hparent : t.at? parent = some .directory)
    (hold : t.at? (parent ++ [name]) ≠ some .directory) :
    (t.removeAt (parent ++ [name])).at? = Function.update t.at? (parent ++ [name]) none := by
  funext location
  rw [removeAt, List.getLast?_concat, List.dropLast_concat, Function.update_apply]
  exact at?_changeAt none hparent hold (fun _ _ => rfl)
    (fun entries other => get?_filter entries name other) location

end Tree

end FineGrain
