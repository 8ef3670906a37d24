import FineGrain.Proofs.Command.Planning
import FineGrain.Proofs.Files.Walk
import Mathlib.Data.List.Find
/-!
Which configuration goes with a path. The search goes from directory to directory as they are named in the
path: for a path that begins at the root and consists of names, on a disk without links, these are all
directories around the target, and the closest one with a configuration is found; a path that begins in
the working directory is searched as far as that one.
-/

namespace FineGrain

open Command

namespace Path

variable {base name : String} {names front : List String}

/-- Where a path of names begins: at the root, or in the working directory. -/
def Origin (base : String) : Prop := base = "/" ∨ base = ""

/-! ### Paths of names -/

theorem intercalate_cons (name : String) (hsome : names ≠ []) :
    "/".intercalate (name :: names) = name ++ "/" ++ "/".intercalate names := by
  obtain ⟨next, rest, rfl⟩ := List.exists_cons_of_ne_nil hsome
  simp

theorem below_root (hsome : names ≠ []) (h : ∀ name ∈ names, Proper name) :
    below "/" names = "" ++ "/" ++ "/".intercalate names := by
  rw [below_eq_join hsome h, join, not_absolute_intercalate h]
  rfl

theorem below_working (hsome : names ≠ []) (h : ∀ name ∈ names, Proper name) :
    below "" names = "/".intercalate names := by
  rw [below_eq_join hsome h, join, not_absolute_intercalate h]
  simp

theorem pieces_below_root (hsome : names ≠ []) (h : ∀ name ∈ names, Proper name) :
    pieces (below "/" names) = "" :: names := by
  have hempty : pieces "" = [""] := by simp [pieces]
  rw [below_root hsome h, pieces_append, hempty,
    pieces_intercalate hsome fun name hname => (h name hname).slash]
  rfl

theorem pieces_below_working (hsome : names ≠ []) (h : ∀ name ∈ names, Proper name) :
    pieces (below "" names) = names := by
  rw [below_working hsome h, pieces_intercalate hsome fun name hname => (h name hname).slash]

theorem below_concat (base : String) (names : List String) (name : String) :
    below base (names ++ [name]) = join (below base names) name := by
  rw [below, List.foldl_append]
  rfl

theorem trimmed_reverse (h : Proper name) (front : List String) :
    trimmed (front ++ [name]).reverse = (front ++ [name]).reverse := by
  rw [List.reverse_append, List.reverse_singleton, List.singleton_append, trimmed_cons h]

theorem parent?_below (hbase : Origin base) (h : ∀ n ∈ names ++ [name], Proper n) :
    parent? (below base (names ++ [name])) = some (below base names) := by
  have hsome : names ++ [name] ≠ [] := by simp
  have hname : Proper name := h name (by simp)
  have hnames : ∀ n ∈ names, Proper n := fun n hn => h n (List.mem_append_left _ hn)
  rcases hbase with rfl | rfl
  · have habsolute : isAbsolute (below "/" (names ++ [name])) = true :=
      isAbsolute_iff.2 (by rw [pieces_below_root hsome h]; cases names <;> simp)
    have hpieces : pieces (below "/" (names ++ [name])) = ("" :: names) ++ [name] :=
      pieces_below_root hsome h
    rw [parent?_of_pieces hpieces hname, habsolute]
    rcases List.eq_nil_or_concat' names with rfl | ⟨front, last, rfl⟩
    · rfl
    · have hlast : Proper last := hnames last (by simp)
      rw [← List.cons_append, trimmed_reverse hlast, if_neg (by simp), List.reverse_reverse,
        below_root (by simp) hnames, List.cons_append, intercalate_cons "" (by simp)]
  · rw [parent?_of_pieces (pieces_below_working hsome h) hname]
    rcases List.eq_nil_or_concat' names with rfl | ⟨front, last, rfl⟩
    · rfl
    · have hlast : Proper last := hnames last (by simp)
      have hrelative : isAbsolute (below "" (front ++ [last] ++ [name])) = false := by
        rw [below_working hsome h, not_absolute_intercalate h]
      rw [trimmed_reverse hlast, hrelative, if_neg (by simp), List.reverse_reverse,
        below_working (by simp) hnames]

theorem parent?_origin (hbase : Origin base) : parent? base = none := by
  rcases hbase with rfl | rfl <;> decide +kernel

theorem someAncestors_below (hbase : Origin base) (h : ∀ name ∈ names, Proper name) {n : Nat}
    (hn : names.length < n) :
    someAncestors n (below base names) = names.inits.reverse.map (below base) := by
  induction names using List.reverseRecOn generalizing n with
  | nil =>
    obtain ⟨n, rfl⟩ := Nat.exists_eq_add_of_lt hn
    rw [someAncestors]
    simp [below, parent?_origin hbase]
  | append_singleton front name ih =>
    obtain ⟨n, rfl⟩ := Nat.exists_eq_succ_of_ne_zero (Nat.ne_zero_of_lt hn)
    have hfront := ih (fun m hm => h m (List.mem_append_left _ hm)) (n := n) (by simpa using hn)
    rw [someAncestors, parent?_below hbase h]
    simp [hfront, List.inits_append]

theorem components_working (h : ∀ name ∈ names, Proper name) :
    components (below "" names) = names.map .name := by
  cases names with
  | nil => rfl
  | cons name rest =>
    have hname := h name List.mem_cons_self
    have hrest : rest.filterMap component? = rest.map .name := by
      rw [← List.filterMap_eq_map]
      exact List.filterMap_congr fun n hn => (h n (List.mem_cons_of_mem _ hn)).component?
    have hrelative : isAbsolute (below "" (name :: rest)) = false := by
      rw [below_working (List.cons_ne_nil _ _) h, not_absolute_intercalate h]
    rw [components, pieces_below_working (List.cons_ne_nil _ _) h, hrelative]
    simp [hname.here, hname.component?, hrest]

theorem ancestors_below (hbase : Origin base) (h : ∀ name ∈ names, Proper name) :
    ancestors (below base names) = names.inits.reverse.map (below base) := by
  refine someAncestors_below hbase h ?_
  rcases hbase with rfl | rfl
  · rw [components_below (by simp) h, List.length_append, List.length_map]
    omega
  · rw [components_working h, List.length_map]
    omega

theorem size_intercalate_le (front between : List String) (hsome : names ≠ []) :
    ("/".intercalate (front ++ names)).utf8ByteSize ≤
      ("/".intercalate (front ++ (between ++ names))).utf8ByteSize := by
  have hcons (name : String) {l : List String} (hl : l ≠ []) : ("/".intercalate (name :: l)).utf8ByteSize =
      name.utf8ByteSize + 1 + ("/".intercalate l).utf8ByteSize := by
    rw [intercalate_cons name hl, String.utf8ByteSize_append, String.utf8ByteSize_append]
    rfl
  induction front with
  | nil =>
    induction between with
    | nil => exact Nat.le_refl _
    | cons name between ih =>
      rw [List.nil_append, List.nil_append, List.cons_append, hcons name (by simp [hsome])]
      exact Nat.le_add_left_of_le ih
  | cons name front ih =>
    rw [List.cons_append, List.cons_append, hcons name (by simp [hsome]), hcons name (by simp [hsome])]
    exact Nat.add_le_add_left ih _

theorem size_le_join (directory : String) (hname : Proper name) :
    directory.utf8ByteSize ≤ (join directory name).utf8ByteSize := by
  rw [join, hname.not_absolute]
  simp only [Bool.false_eq_true, if_false]
  split <;> simp only [String.utf8ByteSize_append] <;> omega

theorem size_below_le {between : List String} (hbase : Origin base) (hname : Proper name)
    (h : ∀ n ∈ front ++ between, Proper n) : (below base (front ++ [name])).utf8ByteSize ≤
      (below base (front ++ between ++ [name])).utf8ByteSize := by
  have hall : ∀ n ∈ front ++ between ++ [name], Proper n := by
    simpa [or_imp, forall_and, hname] using h
  have hsize := size_intercalate_le front between (List.cons_ne_nil name [])
  rw [← List.append_assoc] at hsize
  rcases hbase with rfl | rfl
  · rw [below_root (by simp) fun n hn => hall n (by simp at hn ⊢; tauto), below_root (by simp) hall]
    simpa [String.utf8ByteSize_append] using hsize
  · rw [below_working (by simp) fun n hn => hall n (by simp at hn ⊢; tauto),
      below_working (by simp) hall]
    exact hsize

end Path

namespace Disk

open FineGrain.Path

variable {d : Disk} {base : String} {names : List String}

def configured (d : Disk) (location : List String) : Bool :=
  match d.root.at? (location ++ [configurationName]) with
  | some (.file _) => true
  | _ => false

/-- The closest directory with a configuration, from the one that the names lead to up to the one where
they begin. -/
def closest? (d : Disk) (location names : List String) : Option (List String) :=
  names.inits.reverse.find? fun front => d.configured (location ++ front)

theorem closest?_nil (d : Disk) (location : List String) :
    d.closest? location [] = if d.configured location then some [] else none := by
  simp [closest?, List.find?_cons]
  split <;> simp_all

theorem closest?_concat (d : Disk) (location names : List String) (name : String) :
    d.closest? location (names ++ [name]) =
      if d.configured (location ++ (names ++ [name])) then some (names ++ [name])
      else d.closest? location names := by
  simp only [closest?, List.inits_append, List.reverse_append]
  simp [List.find?_cons]
  split <;> simp_all

theorem closest?_append (d : Disk) (location above names : List String) :
    d.closest? location (above ++ names) =
      ((d.closest? (location ++ above) names).map (above ++ ·)).or (d.closest? location above) := by
  induction names using List.reverseRecOn with
  | nil =>
    rcases List.eq_nil_or_concat' above with rfl | ⟨front, last, rfl⟩
    · simp [closest?_nil]
    · simp [closest?_nil, closest?_concat]
      split <;> rfl
  | append_singleton names name ih =>
    rw [← List.append_assoc, closest?_concat, closest?_concat, ih]
    simp only [List.append_assoc]
    split <;> rfl

theorem configured_iff {location : List String} : d.configured location = true ↔
    ∃ content, d.root.at? (location ++ [configurationName]) = some (.file content) := by
  unfold configured
  split <;> simp_all

theorem run_firstConfiguration? (d : Disk) (directories : List String) :
    (firstConfiguration? fileSystem directories).run d =
      ((directories.map (join · configurationName)).find? d.isFile, d) := by
  induction directories with
  | nil => rfl
  | cons directory rest ih =>
    rw [firstConfiguration?, run_bind,
      show (fileSystem.isFile (join directory configurationName)).run d =
        (d.isFile (join directory configurationName), d) from rfl,
      List.map_cons, List.find?_cons]
    cases d.isFile (join directory configurationName)
    · exact ih
    · rfl

theorem run_directoryOf? (d : Disk) (path : String) : (directoryOf? fileSystem path).run d =
    (if d.isFile path then Path.parent? path else some path, d) := by
  rw [directoryOf?, run_bind, show (fileSystem.isFile path).run d = (d.isFile path, d) from rfl]
  cases d.isFile path <;> rfl

/-- The names of the directory of a target. -/
def enclosing (d : Disk) (base : String) (names : List String) : List String :=
  if d.isFile (below base names) then names.dropLast else names

theorem place_origin (hbase : Origin base) :
    d.place base = if base = "/" then [] else d.working := by
  have hroot : pieces "/" = ["", ""] := by decide +kernel
  have hempty : pieces "" = [""] := by decide +kernel
  rcases hbase with rfl | rfl
  · simp [place, hroot, start, Path.isAbsolute, along]
  · simp [place, hempty, start, Path.isAbsolute, along]

theorem reaches_below (hbase : Origin base) (hsome : names ≠ []) (h : ∀ name ∈ names, Proper name) :
    d.Reaches (below base names) ↔
      (below base names).utf8ByteSize ≤ longestPath ∧ Passes d.root (d.place base) names := by
  have hpasses : Passes d.root (start d.working (below base names)) (pieces (below base names)) ↔
      Passes d.root (d.place base) names := by
    rw [place_origin hbase]
    rcases hbase with rfl | rfl
    · have habsolute : isAbsolute (below "/" names) = true := by
        rw [below_root hsome h]
        simp [isAbsolute]
      rw [pieces_below_root hsome h, start, if_pos habsolute, Passes, along_idle (.inl rfl), if_pos rfl]
      obtain ⟨name, rest, rfl⟩ := List.exists_cons_of_ne_nil hsome
      exact ⟨fun hp => hp.2.2, fun hp => ⟨hp.1, by decide, hp⟩⟩
    · rw [pieces_below_working hsome h, start, below_working hsome h, not_absolute_intercalate h]
      simp
  have hne : below base names ≠ "" := fun hempty => by
    have hpieces : pieces (below base names) = [""] := by
      rw [hempty]
      decide +kernel
    rcases hbase with rfl | rfl
    · rw [pieces_below_root hsome h] at hpieces
      exact hsome (List.cons.inj hpieces).2
    · rw [pieces_below_working hsome h] at hpieces
      exact (h "" (by simp [hpieces])).something rfl
  exact ⟨fun hr => ⟨hr.short, hpasses.1 hr.passes⟩, fun hr => ⟨hne, hr.1, hpasses.2 hr.2⟩⟩

theorem foldl_along_names (h : ∀ name ∈ names, Proper name) (location : List String) :
    names.foldl along location = location ++ names := by
  induction names generalizing location with
  | nil => exact (List.append_nil _).symm
  | cons name rest ih =>
    rw [List.foldl_cons, along_name (h name List.mem_cons_self),
      ih fun n hn => h n (List.mem_cons_of_mem _ hn)]
    simp

theorem passes_append {t : Tree} {location pieces more : List String} :
    Passes t location (pieces ++ more) ↔
      Passes t location pieces ∧ Passes t (pieces.foldl along location) more := by
  induction pieces generalizing location with
  | nil => simp [Passes]
  | cons piece rest ih => simp [Passes, ih, and_assoc]

theorem proper_configurationName : Proper configurationName :=
  ⟨by decide +kernel, by decide +kernel, by decide +kernel, by decide +kernel⟩

theorem isFile_configuration (h : d.root.Linkless) (hbase : Origin base)
    (hnames : ∀ name ∈ names, Proper name) (hpasses : Passes d.root (d.place base) names)
    (hdirectory : d.root.at? (d.place base ++ names) = some .directory)
    (hshort : (below base (names ++ [configurationName])).utf8ByteSize ≤ longestPath) :
    d.isFile (below base (names ++ [configurationName])) = d.configured (d.place base ++ names) := by
  have hall : ∀ name ∈ names ++ [configurationName], Proper name := by
    simpa [or_imp, forall_and, proper_configurationName] using hnames
  have hreaches : d.Reaches (below base (names ++ [configurationName])) := by
    rw [reaches_below hbase (by simp) hall, passes_append, foldl_along_names hnames]
    exact ⟨hshort, hpasses, hdirectory, by decide, trivial⟩
  rw [Bool.eq_iff_iff, isFile_iff h, place_below d base hall, ← List.append_assoc, configured_iff]
  exact and_iff_right hreaches

/-- Where a target is, there are directories around it. -/
structure Around (d : Disk) (base : String) (names : List String) : Prop where
  passes : Passes d.root (d.place base) names
  directory : d.root.at? (d.place base ++ names) = some .directory

theorem Around.of_front {front : List String} (h : d.Around base names) (hnames : ∀ name ∈ names, Proper name)
    (hfront : front <+: names) : d.Around base front := by
  obtain ⟨rest, rfl⟩ := hfront
  obtain ⟨hpasses, hrest⟩ := passes_append.1 h.passes
  refine ⟨hpasses, ?_⟩
  by_cases hsome : rest = []
  · simpa [hsome] using h.directory
  · have hthere : d.root.at? (d.place base ++ front ++ rest) ≠ none := by
      rw [List.append_assoc, h.directory]
      exact Option.some_ne_none _
    exact Tree.at?_above hthere hsome

theorem isFile_origin (h : d.root.Linkless) (hbase : Origin base) : d.isFile base = false := by
  refine Bool.eq_false_iff.2 fun hfile => ?_
  obtain ⟨hreaches, content, hcontent⟩ := (isFile_iff h).1 hfile
  rcases hbase with rfl | rfl
  · have hroot : pieces "/" = ["", ""] := by decide +kernel
    have hpasses := hreaches.passes
    rw [hroot] at hpasses
    rw [place_origin (.inl rfl), if_pos rfl] at hcontent
    cases hpasses.1.symm.trans hcontent
  · exact hreaches.something rfl

theorem around_enclosing (h : d.root.Linkless) (hbase : Origin base) (hnames : ∀ name ∈ names, Proper name)
    (hthere : d.isFile (below base names) = true ∨ d.isDirectory (below base names) = true) :
    d.Around base (d.enclosing base names) := by
  rw [enclosing]
  split
  next hfile =>
    obtain ⟨hreaches, -⟩ := (isFile_iff h).1 hfile
    rcases List.eq_nil_or_concat' names with rfl | ⟨front, last, rfl⟩
    · rw [below, List.foldl_nil, isFile_origin h hbase] at hfile
      cases hfile
    · obtain ⟨hfront, hlast⟩ := passes_append.1 ((reaches_below hbase (by simp) hnames).1 hreaches).2
      rw [foldl_along_names fun n hn => hnames n (List.mem_append_left _ hn)] at hlast
      rw [List.dropLast_concat]
      exact ⟨hfront, hlast.1⟩
  next hfile =>
    obtain ⟨hreaches, hdirectory⟩ := (isDirectory_iff h).1 (hthere.resolve_left hfile)
    rw [place_below d base hnames] at hdirectory
    refine ⟨?_, hdirectory⟩
    by_cases hsome : names = []
    · rw [hsome]
      trivial
    · exact ((reaches_below hbase hsome hnames).1 hreaches).2

theorem enclosing_prefix (d : Disk) (base : String) (names : List String) :
    d.enclosing base names <+: names := by
  rw [enclosing]
  split
  · exact List.dropLast_prefix names
  · exact List.prefix_refl names

theorem run_directoryOf?_below (h : d.root.Linkless) (hbase : Origin base)
    (hnames : ∀ name ∈ names, Proper name) : (directoryOf? fileSystem (below base names)).run d =
      (some (below base (d.enclosing base names)), d) := by
  rw [run_directoryOf?, enclosing]
  by_cases hfile : d.isFile (below base names) = true
  · rw [if_pos hfile, if_pos hfile]
    rcases List.eq_nil_or_concat' names with rfl | ⟨front, last, rfl⟩
    · rw [below, List.foldl_nil, isFile_origin h hbase] at hfile
      cases hfile
    · rw [parent?_below hbase hnames, List.dropLast_concat]
  · rw [if_neg hfile, if_neg hfile]

theorem findConfiguration?_below (h : d.root.Linkless) (hbase : Origin base)
    (hnames : ∀ name ∈ names, Proper name)
    (hthere : d.isFile (below base names) = true ∨ d.isDirectory (below base names) = true)
    (hshort : (below base (names ++ [configurationName])).utf8ByteSize ≤ longestPath) :
    (findConfiguration? fileSystem (below base names)).run d =
      ((d.closest? (d.place base) (d.enclosing base names)).map fun front =>
        below base (front ++ [configurationName]), d) := by
  have hlower := enclosing_prefix d base names
  have haround := around_enclosing h hbase hnames hthere
  have henclosing : ∀ name ∈ d.enclosing base names, Proper name :=
    fun name hname => hnames name (hlower.subset hname)
  rw [findConfiguration?, run_bind, run_directoryOf?_below h hbase hnames]
  refine (run_firstConfiguration? d _).trans ?_
  rw [ancestors_below hbase henclosing, List.map_map, List.find?_map]
  have hjoin : (join · configurationName) ∘ below base =
      fun front => below base (front ++ [configurationName]) :=
    funext fun front => (below_concat base front configurationName).symm
  rw [hjoin]
  congr 2
  refine List.find?_congr fun front hfront => ?_
  have hfront : front <+: d.enclosing base names := by simpa using hfront
  obtain ⟨more, hmore⟩ := hfront.trans hlower
  have hproper : ∀ name ∈ front, Proper name :=
    fun name hname => hnames name (hmore ▸ List.mem_append_left _ hname)
  obtain ⟨hpasses, hdirectory⟩ := haround.of_front henclosing hfront
  refine isFile_configuration h hbase hproper hpasses hdirectory (Nat.le_trans ?_ hshort)
  rw [← hmore]
  exact size_below_le hbase proper_configurationName (hmore.symm ▸ hnames)

/-- A target in the working directory is reached by its spelling from the root if it is reached by the
one from there. -/
theorem reaches_spelled (hsome : names ≠ []) (hnames : ∀ name ∈ d.working ++ names, Proper name)
    (hworking : Passes d.root [] d.working)
    (hshort : (below "/" (d.working ++ names)).utf8ByteSize ≤ longestPath) :
    (d.Reaches (below "/" (d.working ++ names)) ↔ d.Reaches (below "" names)) ∧
      d.place (below "/" (d.working ++ names)) = d.place (below "" names) := by
  have hinner : ∀ name ∈ names, Proper name := fun name hname => hnames name (List.mem_append_right _ hname)
  have hplace : d.place "/" = [] := (place_origin (.inl rfl)).trans (if_pos rfl)
  have hplace' : d.place "" = d.working := (place_origin (.inr rfl)).trans (if_neg (by decide))
  have hshort' : (below "" names).utf8ByteSize ≤ longestPath := by
    refine Nat.le_trans ?_ hshort
    rw [below_working hsome hinner, below_root (by simp [hsome]) hnames, String.utf8ByteSize_append]
    exact Nat.le_add_left_of_le (size_intercalate_le [] d.working hsome)
  rw [reaches_below (.inl rfl) (by simp [hsome]) hnames, reaches_below (.inr rfl) hsome hinner,
    place_below d _ hnames, place_below d _ hinner, hplace, hplace', passes_append,
    foldl_along_names fun n hn => hnames n (List.mem_append_left _ hn)]
  simp [hshort, hshort', hworking]

/-- For a target in the working directory both spellings lead to the same configuration as long as there
is one that is not above the working directory; and only the spelling from the root leads to one above. -/
theorem findConfiguration?_spelled (h : d.root.Linkless) (hsome : names ≠ [])
    (hnames : ∀ name ∈ d.working ++ names, Proper name) (hworking : Passes d.root [] d.working)
    (hthere : d.isFile (below "" names) = true ∨ d.isDirectory (below "" names) = true)
    (hshort : (below "/" (d.working ++ names ++ [configurationName])).utf8ByteSize ≤ longestPath) :
    (findConfiguration? fileSystem (below "" names)).run d =
        ((d.closest? d.working (d.enclosing "" names)).map fun front =>
          below "" (front ++ [configurationName]), d) ∧
      (findConfiguration? fileSystem (below "/" (d.working ++ names))).run d =
        ((((d.closest? d.working (d.enclosing "" names)).map (d.working ++ ·)).or
          (d.closest? [] d.working)).map fun front => below "/" (front ++ [configurationName]), d) := by
  have hinner : ∀ name ∈ names, Proper name := fun name hname => hnames name (List.mem_append_right _ hname)
  have hplace : d.place "/" = [] := (place_origin (.inl rfl)).trans (if_pos rfl)
  have hplace' : d.place "" = d.working := (place_origin (.inr rfl)).trans (if_neg (by decide))
  have hall : ∀ name ∈ d.working ++ names ++ [configurationName], Proper name := by
    simpa [or_imp, forall_and, proper_configurationName] using hnames
  have hshort' : (below "" (names ++ [configurationName])).utf8ByteSize ≤ longestPath := by
    refine Nat.le_trans ?_ hshort
    rw [below_working (by simp) fun n hn => hall n (by simp at hn ⊢; tauto),
      below_root (by simp) hall, String.utf8ByteSize_append, List.append_assoc]
    exact Nat.le_add_left_of_le (size_intercalate_le [] d.working (by simp))
  have htarget : (below "/" (d.working ++ names)).utf8ByteSize ≤ longestPath := by
    refine Nat.le_trans ?_ hshort
    rw [below_concat]
    exact size_le_join _ proper_configurationName
  obtain ⟨hreaches, hsame⟩ := reaches_spelled hsome hnames hworking htarget
  -- Both spellings reach the same place, and so they are a file or a directory alike.
  have hfile : d.isFile (below "/" (d.working ++ names)) = d.isFile (below "" names) := by
    rw [Bool.eq_iff_iff, isFile_iff h, isFile_iff h, hreaches, hsame]
  have hthere' : d.isFile (below "/" (d.working ++ names)) = true ∨
      d.isDirectory (below "/" (d.working ++ names)) = true := by
    rwa [hfile, isDirectory_iff h, hreaches, hsame, ← isDirectory_iff h]
  -- The directories above the working directory are searched under the spelling from the root
  -- alone.
  have henclosing : d.enclosing "/" (d.working ++ names) = d.working ++ d.enclosing "" names := by
    rw [enclosing, enclosing, hfile]
    split
    · exact List.dropLast_append_of_ne_nil hsome
    · rfl
  refine ⟨?_, ?_⟩
  · rw [findConfiguration?_below h (.inr rfl) hinner hthere hshort', hplace']
  · rw [findConfiguration?_below h (.inl rfl) hnames hthere' hshort, hplace, henclosing, closest?_append,
      List.nil_append]

/-- A target of which two spellings lead to different configurations. -/
example :
    let disk := ofRoot (.directory [
      ("a", .directory [(configurationName, .file (.text ""))]),
      ("b", .directory [("x.js", .file (.text ""))])]) []
    disk.realPath? "a/../b/x.js" = disk.realPath? "b/x.js" ∧
      ((findConfiguration? fileSystem "b/x.js").run disk).1 = none ∧
      ((findConfiguration? fileSystem "a/../b/x.js").run disk).1 = some "a/reactant.toml" := by
  decide +kernel

end Disk

end FineGrain
