import FineGrain.Files.Path
import Mathlib.Data.List.Basic
/-!
Paths by their pieces. Joining a name adds a component; what lies below a directory is found again by its
names; and the file name of a path is its last piece.
-/

namespace FineGrain

namespace Path

/-- What the entry of a directory can be called. -/
structure Proper (name : String) : Prop where
  slash : '/' ∉ name.toList
  something : name ≠ ""
  here : name ≠ "."
  up : name ≠ ".."

variable {directory name : String} {names : List String}

theorem Proper.not_absolute (h : Proper name) : isAbsolute name = false := by
  rw [isAbsolute]
  cases hchars : name.toList with
  | nil => rfl
  | cons c rest =>
    have hc : c ≠ '/' := fun heq => h.slash (by rw [hchars, heq]; exact List.mem_cons_self)
    simpa using hc

theorem Proper.component? (h : Proper name) : Path.component? name = some (.name name) := by
  unfold Path.component?
  split
  · exact absurd rfl h.something
  · exact absurd rfl h.here
  · exact absurd rfl h.up
  · rfl

theorem pieces_append (first rest : String) :
    pieces (first ++ "/" ++ rest) = pieces first ++ pieces rest := by
  simp [pieces, List.splitOn_append_cons_self]

theorem Proper.pieces (h : Proper name) : Path.pieces name = [name] := by
  simp [Path.pieces, List.splitOn_eq_singleton h.slash]

theorem isAbsolute_slash (front rest : String) :
    isAbsolute (front ++ "/" ++ rest) = isAbsolute (front ++ "/") := by
  cases hchars : front.toList <;> simp [isAbsolute, hchars]

theorem pieces_trailing (front : String) : pieces (front ++ "/") = pieces front ++ [""] := by
  have hempty : pieces "" = [""] := by simp [pieces]
  simpa [hempty] using pieces_append front ""

theorem components_slash (front rest : String) :
    components (front ++ "/" ++ rest) =
      components (front ++ "/") ++ (pieces rest).filterMap component? := by
  obtain ⟨first, more, hfront⟩ : ∃ first more, pieces front = first :: more :=
    List.exists_cons_of_ne_nil (by simp [pieces])
  rw [components, components, pieces_append, pieces_trailing, hfront, isAbsolute_slash]
  simp [Path.component?]

theorem isAbsolute_trailing (h : directory ≠ "") :
    isAbsolute (directory ++ "/") = isAbsolute directory := by
  cases hchars : directory.toList with
  | nil => exact absurd (String.toList_eq_nil_iff.1 hchars) h
  | cons c rest => simp [isAbsolute, hchars]

theorem components_trailing (h : directory ≠ "") :
    components (directory ++ "/") = components directory := by
  obtain ⟨first, more, hfront⟩ : ∃ first more, pieces directory = first :: more :=
    List.exists_cons_of_ne_nil (by simp [pieces])
  rw [components, components, pieces_trailing, hfront, isAbsolute_trailing h]
  simp [Path.component?]

theorem components_join (hdirectory : directory ≠ "") (h : Proper name) :
    components (join directory name) = components directory ++ [.name name] := by
  have hname : (Path.pieces name).filterMap Path.component? = [.name name] := by
    simp [h.pieces, h.component?]
  rw [join, h.not_absolute]
  simp only [Bool.false_eq_true, if_false]
  split
  next hlast =>
    exact absurd (String.toList_eq_nil_iff.1 (List.getLast?_eq_none_iff.1 hlast)) hdirectory
  next hlast =>
    obtain ⟨front, hfront⟩ := List.getLast?_eq_some_iff.1 hlast
    obtain rfl : directory = String.ofList front ++ "/" := by
      rw [← String.toList_inj, hfront]
      simp
    rw [components_slash, hname]
  next => rw [components_slash, components_trailing hdirectory, hname]

theorem join_ne_empty (h : directory ≠ "") : join directory name ≠ "" := by
  rw [join]
  split
  next habsolute =>
    rintro rfl
    cases habsolute
  · split <;> simp [h]

/-- What lies below a directory under names, one inside the other. -/
def below (directory : String) (names : List String) : String := names.foldl join directory

theorem components_below (hdirectory : directory ≠ "") (h : ∀ name ∈ names, Proper name) :
    components (below directory names) = components directory ++ names.map .name := by
  induction names generalizing directory with
  | nil => exact (List.append_nil _).symm
  | cons name rest ih =>
    have hne : join directory name ≠ "" := join_ne_empty hdirectory
    have hrest := ih hne fun n hn => h n (List.mem_cons_of_mem _ hn)
    rw [below, List.foldl_cons, ← below, hrest, components_join hdirectory (h name List.mem_cons_self)]
    simp

theorem below_injective {names' : List String} (hdirectory : directory ≠ "")
    (h : ∀ name ∈ names, Proper name) (h' : ∀ name ∈ names', Proper name)
    (heq : below directory names = below directory names') : names = names' := by
  have hcomponents := congrArg components heq
  rw [components_below hdirectory h, components_below hdirectory h'] at hcomponents
  exact List.map_injective_iff.2 (fun _ _ => Component.name.inj) (List.append_cancel_left hcomponents)

theorem dropPrefix?_append {α : Type} [DecidableEq α] (l rest : List α) :
    dropPrefix? l (l ++ rest) = some rest := by
  induction l with
  | nil => rfl
  | cons a l ih => simp [dropPrefix?, ih]

theorem relativeTo?_below (hdirectory : directory ≠ "") (h : ∀ name ∈ names, Proper name) :
    relativeTo? (below directory names) directory = some ("/".intercalate names) := by
  rw [relativeTo?, components_below hdirectory h, dropPrefix?_append, Option.map_some, List.map_map]
  congr 2
  exact List.map_id'' (fun _ => rfl) names

theorem not_absolute_intercalate (h : ∀ name ∈ names, Proper name) :
    isAbsolute ("/".intercalate names) = false := by
  cases names with
  | nil => simp [isAbsolute]
  | cons name rest =>
    have hname := h name List.mem_cons_self
    have hfirst := hname.not_absolute
    obtain ⟨c, chars, hchars⟩ :=
      List.exists_cons_of_ne_nil (mt String.toList_eq_nil_iff.1 hname.something)
    cases rest <;> simpa [isAbsolute, hchars] using hfirst

theorem exists_join (directory : String) :
    ∃ front, ∀ rest, isAbsolute rest = false → join directory rest = front ++ rest := by
  cases hlast : directory.toList.getLast? with
  | none => exact ⟨directory, fun rest h => by simp [join, h, hlast]⟩
  | some c =>
    by_cases hc : c = '/'
    · exact ⟨directory, fun rest h => by simp [join, h, hlast, hc]⟩
    · exact ⟨directory ++ "/", fun rest h => by simp [join, h, hlast]⟩

theorem join_join (h : Proper name) {rest : String} (hrest : isAbsolute rest = false) :
    join (join directory name) rest = join directory (name ++ "/" ++ rest) := by
  obtain ⟨front, hfront⟩ := exists_join directory
  have hlong : isAbsolute (name ++ "/" ++ rest) = false := by
    obtain ⟨c, chars, hchars⟩ := List.exists_cons_of_ne_nil (mt String.toList_eq_nil_iff.1 h.something)
    simpa [isAbsolute, hchars] using h.not_absolute
  have hsome : name.toList ≠ [] := mt String.toList_eq_nil_iff.1 h.something
  have hlast : (front ++ name).toList.getLast? = some (name.toList.getLast hsome) := by
    rw [String.toList_append, List.getLast?_append_of_ne_nil _ hsome, List.getLast?_eq_some_getLast hsome]
  have hc : name.toList.getLast hsome ≠ '/' := fun heq => h.slash (heq ▸ List.getLast_mem hsome)
  rw [hfront name h.not_absolute, hfront _ hlong, join, hrest, hlast]
  simp [String.append_assoc]

theorem below_eq_join (hsome : names ≠ []) (h : ∀ name ∈ names, Proper name) (directory : String) :
    below directory names = join directory ("/".intercalate names) := by
  induction names generalizing directory with
  | nil => exact absurd rfl hsome
  | cons name rest ih =>
    cases rest with
    | nil => simp [below]
    | cons next rest =>
      have hall (n : String) (hn : n ∈ next :: rest) : Proper n := h n (List.mem_cons_of_mem _ hn)
      have hcons : "/".intercalate (name :: next :: rest) =
          name ++ "/" ++ "/".intercalate (next :: rest) := by
        simp
      rw [below, List.foldl_cons, ← below, ih (List.cons_ne_nil _ _) hall, hcons,
        join_join (h name List.mem_cons_self) (not_absolute_intercalate hall)]

/-- A piece that does not count, unless it is the first one. -/
def Idle (piece : String) : Prop := piece = "" ∨ piece = "."

theorem not_mem_of_mem_splitOn {sep : Char} {l chars : List Char} (h : chars ∈ l.splitOn sep) :
    sep ∉ chars := by
  induction l generalizing chars with
  | nil =>
    obtain rfl : chars = [] := by simpa using h
    exact List.not_mem_nil
  | cons c rest ih =>
    rw [List.splitOn_cons_eq_if_modifyHead] at h
    split at h
    · rcases List.mem_cons.1 h with rfl | h
      · exact List.not_mem_nil
      · exact ih h
    next hc =>
      obtain ⟨first, more, hsplit⟩ := List.exists_cons_of_ne_nil (List.splitOn_ne_nil sep rest)
      rw [hsplit, List.modifyHead_cons] at h
      rcases List.mem_cons.1 h with rfl | h
      · have hfirst : sep ∉ first := ih (by rw [hsplit]; exact List.mem_cons_self)
        exact List.not_mem_cons_of_ne_of_not_mem (fun heq => hc (by simp [heq])) hfirst
      · exact ih (by rw [hsplit]; exact List.mem_cons_of_mem _ h)

theorem slash_not_mem {path piece : String} (h : piece ∈ pieces path) : '/' ∉ piece.toList := by
  obtain ⟨chars, hchars, rfl⟩ := List.mem_map.1 h
  rw [String.toList_ofList]
  exact not_mem_of_mem_splitOn hchars

theorem intercalate_pieces (path : String) : "/".intercalate (pieces path) = path := by
  rw [← String.toList_inj, String.toList_intercalate, pieces, List.map_map]
  have hchars : String.toList ∘ String.ofList = id := funext fun _ => String.toList_ofList
  rw [hchars, List.map_id]
  exact List.intercalate_splitOn '/'

theorem pieces_intercalate (hsome : names ≠ []) (h : ∀ name ∈ names, '/' ∉ name.toList) :
    pieces ("/".intercalate names) = names := by
  rw [pieces, String.toList_intercalate]
  refine (congrArg _ (List.splitOn_intercalate '/' (fun chars hchars => ?_)
    (by simpa using hsome))).trans ?_
  · obtain ⟨name, hname, rfl⟩ := List.mem_map.1 hchars
    exact h name hname
  · rw [List.map_map]
    exact List.map_id'' (fun _ => String.ofList_toList) names

theorem isAbsolute_iff {path : String} : isAbsolute path = true ↔
    ∃ piece rest, pieces path = "" :: piece :: rest := by
  rw [isAbsolute, pieces]
  cases path.toList with
  | nil => simp
  | cons c rest =>
    obtain ⟨first, more, hsplit⟩ := List.exists_cons_of_ne_nil (List.splitOn_ne_nil '/' rest)
    rw [List.splitOn_cons_eq_if_modifyHead, hsplit]
    by_cases hc : c = '/' <;> simp [hc]

theorem trimmed_spec {l : List String} (hsome : l ≠ []) :
    trimmed l ≠ [] ∧ ∃ dropped, l = dropped ++ trimmed l ∧ ∀ piece ∈ dropped, Idle piece := by
  induction l with
  | nil => exact absurd rfl hsome
  | cons piece rest ih =>
    cases rest with
    | nil => exact ⟨List.cons_ne_nil _ _, [], rfl, nofun⟩
    | cons next rest =>
      rw [trimmed]
      · split
        next hidle =>
          obtain ⟨hkept, dropped, hdropped, hall⟩ := ih (List.cons_ne_nil _ _)
          refine ⟨hkept, piece :: dropped, congrArg (piece :: ·) hdropped, fun p hp => ?_⟩
          rcases List.mem_cons.1 hp with rfl | hp
          · simpa [Idle] using hidle
          · exact hall p hp
        next => exact ⟨List.cons_ne_nil _ _, [], rfl, nofun⟩
      · exact List.cons_ne_nil _ _

theorem trimmed_cons (h : Proper name) (l : List String) : trimmed (name :: l) = name :: l := by
  cases l with
  | nil => rfl
  | cons next rest => rw [trimmed, if_neg (by simp [h.something, h.here])]; exact List.cons_ne_nil _ _

theorem getLast?_components {path : String} {front : List String}
    (hpieces : pieces path = front ++ [name])
    (h : Proper name) : (components path).getLast? = some (.name name) := by
  cases front with
  | nil =>
    obtain rfl : path = name := by
      rw [← intercalate_pieces path, hpieces]
      simp
    simp [components, hpieces, h.not_absolute, h.here, h.component?]
  | cons first rest =>
    rw [components, hpieces]
    simp [h.component?]

theorem fileName?_of_pieces {path : String} {front : List String}
    (hpieces : pieces path = front ++ [name])
    (h : Proper name) : fileName? path = some name := by
  rw [fileName?, getLast?_components hpieces h]

theorem parent?_of_pieces {path : String} {front : List String} (hpieces : pieces path = front ++ [name])
    (h : Proper name) : parent? path =
      some (if trimmed front.reverse = [""] ∧ isAbsolute path = true then "/"
      else "/".intercalate (trimmed front.reverse).reverse) := by
  rw [parent?, getLast?_components hpieces h, hpieces]
  simp only [List.reverse_append, List.reverse_cons, List.reverse_nil, List.nil_append,
    List.singleton_append, trimmed_cons h, List.tail_cons, Bool.and_eq_true, beq_iff_eq]
  split <;> rfl

end Path

end FineGrain
