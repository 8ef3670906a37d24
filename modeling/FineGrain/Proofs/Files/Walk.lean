import FineGrain.Proofs.Files.Path
import FineGrain.Proofs.Files.Tree
/-!
Where paths lead on a disk without links. The place of a path is known from its pieces alone, and whether
the path leads there from the directories on the way.
-/

namespace FineGrain

def Tree.Linkless (t : Tree) : Prop := ∀ location target, t.at? location ≠ some (.link target)

namespace Disk

open FineGrain.Tree

variable {t t' : Tree} {location pieces : List String} {path : String} {d d' : Disk}

/-- Where a piece of a path leads from a location. -/
def along (location : List String) (piece : String) : List String :=
  if piece = "" ∨ piece = "." then location
  else if piece = ".." then location.dropLast
  else location ++ [piece]

theorem along_idle {piece : String} (h : Path.Idle piece) (location : List String) :
    along location piece = location := if_pos h

theorem along_name {name : String} (h : Path.Proper name) (location : List String) :
    along location name = location ++ [name] := by
  rw [along, if_neg (by simp [h.something, h.here]), if_neg h.up]

/-- A walk along pieces finds a directory before each of them, and none is too long. -/
def Passes (t : Tree) : List String → List String → Prop
  | _, [] => True
  | location, piece :: rest => t.at? location = some .directory ∧ piece.utf8ByteSize ≤ longestName ∧
      Passes t (along location piece) rest

theorem Passes.mono (h : ∀ location, t.at? location = some .directory → t'.at? location = some .directory)
    (hp : Passes t location pieces) : Passes t' location pieces := by
  induction pieces generalizing location with
  | nil => trivial
  | cons piece rest ih => exact ⟨h _ hp.1, hp.2.1, ih hp.2.2⟩

theorem passes_congr
    (h : ∀ location, t.at? location = some .directory ↔ t'.at? location = some .directory) :
    Passes t location pieces ↔ Passes t' location pieces :=
  ⟨.mono fun location => (h location).1, .mono fun location => (h location).2⟩

theorem walk_eq_ok_iff (h : t.Linkless) {follow : Bool} {n links : Nat} (hn : pieces.length < n)
    {found : Found} : walk t follow n links location pieces = .ok found ↔
      Passes t location pieces ∧
        found = ⟨pieces.foldl along location, t.find? (pieces.foldl along location)⟩ := by
  induction pieces generalizing n location with
  | nil =>
    obtain ⟨n, rfl⟩ := Nat.exists_eq_add_of_lt hn
    simp [walk, Passes, eq_comm]
  | cons piece rest ih =>
    obtain ⟨n, rfl⟩ : ∃ m, n = m + 1 := Nat.exists_eq_succ_of_ne_zero (by omega)
    have hrest : rest.length < n := by simpa using hn
    rw [walk, Passes, List.foldl_cons]
    by_cases hdirectory : t.at? location = some .directory
    · obtain ⟨entries, hfind⟩ := at?_eq_directory.1 hdirectory
      rw [hfind]
      simp only [hdirectory, true_and]
      -- A piece stays where it is, goes up, or names an entry; only the last case looks anything up.
      by_cases hskip : piece = "" ∨ piece = "."
      · have hshort : piece.utf8ByteSize ≤ longestName := by rcases hskip with rfl | rfl <;> decide
        have halong : along location piece = location := if_pos hskip
        rw [if_pos (by simpa using hskip), ih hrest, halong]
        simp [hshort]
      · rw [if_neg (by simpa using hskip)]
        by_cases hup : piece = ".."
        · have hshort : piece.utf8ByteSize ≤ longestName := by rw [hup]; decide
          have halong : along location piece = location.dropLast := by
            rw [along, if_neg hskip, if_pos hup]
          rw [if_pos (by simpa using hup), ih hrest, halong]
          simp [hshort]
        · have halong : along location piece = location ++ [piece] := by
            rw [along, if_neg hskip, if_neg hup]
          rw [if_neg (by simpa using hup), halong]
          by_cases hlong : longestName < piece.utf8ByteSize
          · rw [if_pos hlong]
            simp [Nat.not_le.2 hlong]
          · rw [if_neg hlong]
            simp only [Nat.not_lt.1 hlong, true_and]
            cases hhere : t.find? (location ++ [piece]) with
            | none =>
              cases rest with
              | nil => simp [Passes, hhere, eq_comm]
              | cons next rest => simp [Passes, at?, hhere]
            | some item =>
              cases item with
              | link target => exact absurd (by rw [at?, hhere]; rfl) (h (location ++ [piece]) target)
              | file | directory => exact ih hrest
    · split
      next entries hfind => exact absurd (at?_eq_directory.2 ⟨entries, hfind⟩) hdirectory
      · simp [hdirectory]

/-! ### Paths -/

/-- Where a path leads, if it leads anywhere and meets no link. -/
def place (d : Disk) (path : String) : List String :=
  (Path.pieces path).foldl along (start d.working path)

/-- A path leads to its place. Nothing need be there. -/
structure Reaches (d : Disk) (path : String) : Prop where
  something : path ≠ ""
  short : path.utf8ByteSize ≤ longestPath
  passes : Passes d.root (start d.working path) (Path.pieces path)

theorem length_splitOn_le (sep : Char) (l : List Char) : (l.splitOn sep).length ≤ l.length + 1 := by
  induction l with
  | nil => simp
  | cons c rest ih =>
    rw [List.splitOn_cons_eq_if_modifyHead]
    split
    · simpa using ih
    · rw [List.length_modifyHead, List.length_cons]
      omega

theorem length_le_size (l : List Char) : l.length ≤ (String.ofList l).utf8ByteSize := by
  induction l with
  | nil => exact Nat.zero_le _
  | cons c rest ih =>
    have hcons : String.ofList (c :: rest) = String.singleton c ++ String.ofList rest := by
      simp
    have hpos := Char.utf8Size_pos c
    rw [hcons, String.utf8ByteSize_append, String.utf8ByteSize_singleton, List.length_cons]
    omega

theorem length_pieces_le (path : String) : (Path.pieces path).length ≤ path.utf8ByteSize + 1 := by
  have hsplit := length_splitOn_le '/' path.toList
  have hsize := length_le_size path.toList
  rw [String.ofList_toList] at hsize
  rw [Path.pieces, List.length_map]
  omega

theorem resolve_eq_ok_iff (h : d.root.Linkless) {follow : Bool} {found : Found} :
    d.resolve follow path = .ok found ↔
      d.Reaches path ∧ found = ⟨d.place path, d.root.find? (d.place path)⟩ := by
  rw [resolve]
  by_cases hempty : path = ""
  · subst hempty
    simp only [beq_self_eq_true, if_true, reduceCtorEq, false_iff, not_and]
    exact fun hr => absurd rfl hr.something
  rw [if_neg (by simpa using hempty)]
  by_cases hlong : longestPath < path.utf8ByteSize
  · rw [if_pos hlong]
    simp only [reduceCtorEq, false_iff, not_and]
    exact fun hr => absurd hr.short (Nat.not_le.2 hlong)
  have hshort := Nat.not_lt.1 hlong
  have hsteps : (Path.pieces path).length < (mostLinks + 1) * (longestPath + 1) := by
    have hlength := length_pieces_le path
    unfold longestPath mostLinks at *
    omega
  rw [if_neg hlong, walk_eq_ok_iff h hsteps]
  exact and_congr_left fun _ => ⟨fun hp => ⟨hempty, hshort, hp⟩, fun hr => hr.passes⟩

theorem resolve_eq_ok (h : d.root.Linkless) (hr : d.Reaches path) (follow : Bool) :
    d.resolve follow path = .ok ⟨d.place path, d.root.find? (d.place path)⟩ :=
  (resolve_eq_ok_iff h).2 ⟨hr, rfl⟩

theorem resolve_eq_error (h : d.root.Linkless) (hr : ¬ d.Reaches path) (follow : Bool) :
    ∃ e, d.resolve follow path = .error e := by
  cases hresolve : d.resolve follow path with
  | ok found => exact absurd ((resolve_eq_ok_iff h).1 hresolve).1 hr
  | error e => exact ⟨e, rfl⟩

theorem Passes.last (hp : Passes t location pieces) (hsome : pieces ≠ [])
    (hplace : t.at? (pieces.foldl along location) ≠ some .directory) :
    ∃ front name, pieces = front ++ [name] ∧ ¬ Path.Idle name ∧ name ≠ ".." ∧
      t.at? (front.foldl along location) = some .directory := by
  induction pieces generalizing location with
  | nil => exact absurd rfl hsome
  | cons piece rest ih =>
    obtain ⟨hdirectory, -, hrest⟩ := hp
    by_cases hlast : rest = []
    · subst hlast
      rw [List.foldl_cons, List.foldl_nil] at hplace
      refine ⟨[], piece, rfl, fun hidle => ?_, fun hup => ?_, hdirectory⟩
      · rw [along_idle hidle] at hplace
        exact hplace hdirectory
      · subst hup
        refine hplace ?_
        rw [show along location ".." = location.dropLast from rfl]
        by_cases hroot : location = []
        · rw [hroot] at hdirectory ⊢
          exact hdirectory
        · have hlocation : t.at? (location.dropLast ++ [location.getLast hroot]) ≠ none := by
            rw [List.dropLast_append_getLast, hdirectory]
            exact Option.some_ne_none _
          exact at?_above hlocation (List.cons_ne_nil _ _)
    · obtain ⟨front, name, rfl, hname⟩ := ih hrest hlast hplace
      exact ⟨piece :: front, name, rfl, hname⟩

theorem Reaches.last (hr : d.Reaches path) (hplace : d.root.at? (d.place path) ≠ some .directory) :
    ∃ front name, Path.pieces path = front ++ [name] ∧ Path.Proper name ∧
      d.place path = front.foldl along (start d.working path) ++ [name] ∧
      d.root.at? (front.foldl along (start d.working path)) = some .directory := by
  obtain ⟨front, name, hpieces, hidle, hup, hdirectory⟩ := hr.passes.last (by simp [Path.pieces]) hplace
  have hname : Path.Proper name :=
    ⟨Path.slash_not_mem (by rw [hpieces]; simp), fun h => hidle (.inl h), fun h => hidle (.inr h), hup⟩
  refine ⟨front, name, hpieces, hname, ?_, hdirectory⟩
  rw [place, hpieces, List.foldl_append, List.foldl_cons, List.foldl_nil, along_name hname]

/-! ### Places of joined paths -/

theorem start_congr {path other : String} (h : Path.isAbsolute path = Path.isAbsolute other)
    (location : List String) :
    start location path = start location other := by rw [start, start, h]

theorem place_slash (d : Disk) (front : String) {name : String} (h : Path.Proper name) :
    d.place (front ++ "/" ++ name) =
      (Path.pieces front).foldl along (start d.working (front ++ "/")) ++ [name] := by
  rw [place, Path.pieces_append, h.pieces, List.foldl_append,
    List.foldl_cons, List.foldl_nil, along_name h,
    start_congr (Path.isAbsolute_slash front name)]

theorem place_join (d : Disk) (directory : String) {name : String} (h : Path.Proper name) :
    d.place (Path.join directory name) = d.place directory ++ [name] := by
  rw [Path.join, h.not_absolute]
  simp only [Bool.false_eq_true, if_false]
  split
  next hlast =>
    obtain rfl := String.toList_eq_nil_iff.1 (List.getLast?_eq_none_iff.1 hlast)
    have hempty : d.place "" = d.working := by simp [place, Path.pieces, along, start, Path.isAbsolute]
    rw [hempty, String.empty_append, place, h.pieces, List.foldl_cons,
      List.foldl_nil, along_name h, start, if_neg (by simp [h.not_absolute])]
  next hlast =>
    obtain ⟨front, hfront⟩ := List.getLast?_eq_some_iff.1 hlast
    obtain rfl : directory = String.ofList front ++ "/" := by
      rw [← String.toList_inj, hfront]
      simp
    rw [place_slash d _ h, place, Path.pieces_trailing, List.foldl_append,
      List.foldl_cons, List.foldl_nil, along_idle (.inl rfl)]
  next c hslash hlast =>
    have hdirectory : directory ≠ "" := by
      rintro rfl
      cases hlast
    rw [place_slash d _ h, start_congr (Path.isAbsolute_trailing hdirectory), place]

theorem place_below (d : Disk) (directory : String) {names : List String}
    (h : ∀ name ∈ names, Path.Proper name) :
    d.place (Path.below directory names) = d.place directory ++ names := by
  induction names generalizing directory with
  | nil => exact (List.append_nil _).symm
  | cons name rest ih =>
    have hrest := ih (Path.join directory name) fun n hn => h n (List.mem_cons_of_mem _ hn)
    rw [Path.below, List.foldl_cons, ← Path.below, hrest,
      d.place_join directory (h name List.mem_cons_self)]
    simp

theorem foldl_along_idle {l : List String} (h : ∀ piece ∈ l, Path.Idle piece) (location : List String) :
    l.foldl along location = location := by
  induction l with
  | nil => rfl
  | cons piece rest ih =>
    rw [List.foldl_cons, along_idle (h piece List.mem_cons_self),
      ih fun p hp => h p (List.mem_cons_of_mem _ hp)]

theorem place_parent (d : Disk) {path name parent : String} {front : List String}
    (hpieces : Path.pieces path = front ++ [name]) (h : Path.Proper name) (hfront : front ≠ [])
    (hparent : Path.parent? path = some parent) :
    d.place parent = front.foldl along (start d.working path) := by
  obtain ⟨hkept, dropped, hdropped, hidle⟩ := Path.trimmed_spec (List.reverse_ne_nil_iff.2 hfront)
  rw [Path.parent?_of_pieces hpieces h, Option.some_inj] at hparent
  generalize Path.trimmed front.reverse = kept at hkept hdropped hparent
  obtain rfl : front = kept.reverse ++ dropped.reverse := by
    rw [← List.reverse_append, ← hdropped, List.reverse_reverse]
  have hfold (location : List String) :
      (kept.reverse ++ dropped.reverse).foldl along location = kept.reverse.foldl along location := by
    rw [List.foldl_append, foldl_along_idle fun p hp => hidle p (List.mem_reverse.1 hp)]
  rw [hfold]
  split at hparent
  next hroot =>
    obtain ⟨rfl, habsolute⟩ := hroot
    subst hparent
    rw [start, if_pos habsolute]
    rfl
  next hroot =>
    -- a lone empty piece in front stands for the root, which the other case is about
    have hlone (hone : kept = [""]) : False := by
      refine hroot ⟨hone, Path.isAbsolute_iff.2 ?_⟩
      rw [hpieces, hone]
      cases dropped.reverse <;> simp
    have hpieces' : Path.pieces parent = kept.reverse := by
      rw [← hparent]
      refine Path.pieces_intercalate (List.reverse_ne_nil_iff.2 hkept) fun piece hpiece => ?_
      have hmem : piece ∈ Path.pieces path := by
        rw [hpieces]
        simp [List.mem_reverse.1 hpiece]
      exact Path.slash_not_mem hmem
    have habsolute : Path.isAbsolute parent = Path.isAbsolute path := by
      rw [Bool.eq_iff_iff, Path.isAbsolute_iff, Path.isAbsolute_iff, hpieces', hpieces]
      constructor
      · rintro ⟨piece, rest, heq⟩
        exact ⟨piece, rest ++ dropped.reverse ++ [name], by simp [heq]⟩
      · rintro ⟨piece, rest, heq⟩
        cases hk : kept.reverse with
        | nil => exact absurd (List.reverse_eq_nil_iff.1 hk) hkept
        | cons a l =>
          rw [hk] at heq
          obtain rfl : a = "" := (List.cons.inj heq).1
          cases l with
          | nil => exact (hlone (by simpa using congrArg List.reverse hk)).elim
          | cons b l => exact ⟨b, l, rfl⟩
    rw [place, hpieces', start_congr habsolute]

theorem place_withFileName (d : Disk) {path name new : String} {front : List String}
    (hpieces : Path.pieces path = front ++ [name]) (h : Path.Proper name) (hnew : Path.Proper new) :
    d.place (Path.withFileName path new) = front.foldl along (start d.working path) ++ [new] := by
  rw [Path.withFileName, Path.fileName?_of_pieces hpieces h]
  dsimp only
  by_cases hfront : front = []
  · subst hfront
    obtain rfl : path = name := by
      rw [← Path.intercalate_pieces path, hpieces]
      simp
    have hparent : Path.parent? path = some "" := by
      rw [Path.parent?_of_pieces hpieces h]
      rfl
    have hjoin : Path.join "" new = new := by simp [Path.join, hnew.not_absolute]
    rw [hparent, Option.getD_some, hjoin, place, hnew.pieces, List.foldl_cons, along_name hnew,
      start_congr (hnew.not_absolute.trans h.not_absolute.symm)]
    rfl
  · obtain ⟨parent, hparent⟩ : ∃ parent, Path.parent? path = some parent :=
      ⟨_, Path.parent?_of_pieces hpieces h⟩
    rw [hparent, Option.getD_some, place_join d parent hnew, place_parent d hpieces h hfront hparent]

/-! ### Operations -/

theorem run_attempt_ok {act : Disk → Except FileError Disk} (h : act d = .ok d') :
    (attempt act).run d = (.ok (), d') := by
  simp only [attempt, StateT.run_bind, StateT.run_get, pure_bind, h]
  rfl

theorem run_attempt_error {act : Disk → Except FileError Disk} {e : FileError} (h : act d = .error e) :
    (attempt act).run d = (.error e, d) := by
  simp only [attempt, StateT.run_bind, StateT.run_get, pure_bind, h]
  rfl

theorem snd_run_attempt {act : Disk → Except FileError Disk} (h : ∀ d', act d = .ok d' → d' = d) :
    ((attempt act).run d).2 = d := by
  cases hact : act d with
  | ok d' =>
    obtain rfl := h d' hact
    exact congrArg Prod.snd (run_attempt_ok hact)
  | error e => exact congrArg Prod.snd (run_attempt_error hact)

/-- A file can be written under a path. -/
structure Writable (d : Disk) (path : String) : Prop where
  reaches : d.Reaches path
  free : d.root.at? (d.place path) ≠ some .directory

theorem read_eq_ok_iff (h : d.root.Linkless) {text : String} :
    d.read path = .ok text ↔ d.Reaches path ∧ d.root.at? (d.place path) = some (.file (.text text)) := by
  by_cases hr : d.Reaches path
  · have hresolve := resolve_eq_ok h hr true
    rw [at?_eq_file]
    simp only [read, hresolve, hr, true_and, bind, Except.bind]
    split <;> simp_all
  · obtain ⟨e, he⟩ := resolve_eq_error h hr true
    simp [read, he, hr, bind, Except.bind]

/-- A disk as it is when something else is at some locations. -/
structure Becomes (d : Disk) (look : List String → Option Look) (d' : Disk) : Prop where
  working : d'.working = d.working
  look : d'.root.at? = look

/-- Where a file can be written it is written, and nothing else changes. -/
theorem writeContent_ok (h : d.root.Linkless) (hw : d.Writable path) (content : Content) :
    ∃ d', d.writeContent path content = .ok d' ∧
      d.Becomes (Function.update d.root.at? (d.place path) (some (.file content))) d' := by
  refine ⟨d.putAt (d.place path) (.file content), ?_, rfl, ?_⟩
  · simp only [writeContent, resolve_eq_ok h hw.reaches, bind, Except.bind]
    split
    next entries hfind => exact absurd (at?_eq_directory.2 ⟨entries, hfind⟩) hw.free
    · rfl
  · obtain ⟨front, name, -, -, hplace, hparent⟩ := hw.reaches.last hw.free
    have hfree := hw.free
    rw [hplace] at hfree ⊢
    exact at?_place (fun _ => find?_file content) hparent hfree

theorem writeContent_error (h : d.root.Linkless) (hw : ¬ d.Writable path) (content : Content) :
    ∃ e, d.writeContent path content = .error e := by
  by_cases hr : d.Reaches path
  · obtain ⟨entries, hfind⟩ := at?_eq_directory.1 (not_not.1 fun hfree => hw ⟨hr, hfree⟩)
    exact ⟨.isDirectory, by simp [writeContent, resolve_eq_ok h hr, bind, Except.bind, hfind]⟩
  · obtain ⟨e, he⟩ := resolve_eq_error h hr true
    exact ⟨e, by simp [writeContent, he, bind, Except.bind]⟩

theorem remove_ok (h : d.root.Linkless) (hr : d.Reaches path) {content : Content}
    (hfile : d.root.at? (d.place path) = some (.file content)) :
    ∃ d', d.remove path = .ok d' ∧ d.Becomes (Function.update d.root.at? (d.place path) none) d' := by
  refine ⟨{ d with root := d.root.removeAt (d.place path) }, ?_, rfl, ?_⟩
  · simp [remove, resolve_eq_ok h hr, bind, Except.bind, at?_eq_file.1 hfile]
  · have hfree : d.root.at? (d.place path) ≠ some .directory := by simp [hfile]
    obtain ⟨front, name, -, -, hplace, hparent⟩ := hr.last hfree
    rw [hplace] at hfree ⊢
    exact at?_removeAt hparent hfree

theorem move_ok (h : d.root.Linkless) {source target : String} (hr : d.Reaches source) {content : Content}
    (hfile : d.root.at? (d.place source) = some (.file content)) (hw : d.Writable target) :
    ∃ d', d.move source target = .ok d' ∧ d.Becomes (Function.update
      (Function.update d.root.at? (d.place source) none) (d.place target) (some (.file content))) d' := by
  refine ⟨{ d with root := d.root.removeAt (d.place source) }.putAt (d.place target) (.file content),
    ?_, rfl, ?_⟩
  · simp only [move, resolve_eq_ok h hr, resolve_eq_ok h hw.reaches,
      bind, Except.bind, at?_eq_file.1 hfile]
    split
    next heq => cases heq
    next entries _ hfind => exact absurd (at?_eq_directory.2 ⟨entries, hfind⟩) hw.free
    next item hitem _ =>
      cases hitem
      rfl
  · have hfree : d.root.at? (d.place source) ≠ some .directory := by simp [hfile]
    obtain ⟨front, name, -, -, hplace, hparent⟩ := hr.last hfree
    obtain ⟨front', last, -, -, hplace', habove⟩ := hw.reaches.last hw.free
    have hremoved : (d.root.removeAt (d.place source)).at? =
        Function.update d.root.at? (d.place source) none := by
      rw [hplace] at hfree ⊢
      exact at?_removeAt hparent hfree
    have hstays {location : List String} :
        (d.root.removeAt (d.place source)).at? location = some .directory ↔
        d.root.at? location = some .directory := by
      rw [hremoved, Function.update_apply]
      split
      next heq => simp [heq, hfile]
      · rfl
    rw [← hremoved, hplace']
    refine at?_place (fun _ => find?_file content) (hstays.2 habove) ?_
    rw [ne_eq, hstays, ← hplace']
    exact hw.free

theorem move_error (h : d.root.Linkless) {source target : String} (hr : d.Reaches source)
    {content : Content} (hfile : d.root.at? (d.place source) = some (.file content))
    (hw : ¬ d.Writable target) :
    ∃ e, d.move source target = .error e := by
  have hsource := resolve_eq_ok h hr false
  by_cases htarget : d.Reaches target
  · obtain ⟨entries, hfind⟩ := at?_eq_directory.1 (not_not.1 fun hfree => hw ⟨htarget, hfree⟩)
    exact ⟨.isDirectory, by
      simp [move, hsource, resolve_eq_ok h htarget, bind, Except.bind, at?_eq_file.1 hfile, hfind]⟩
  · obtain ⟨e, he⟩ := resolve_eq_error h htarget false
    exact ⟨e, by simp [move, hsource, he, bind, Except.bind]⟩

theorem make_cases (h : d.root.Linkless) (path : String) :
    (∃ d', d.make path (.directory []) = .ok d' ∧ d.root.at? (d.place path) = none ∧
      d.Becomes (Function.update d.root.at? (d.place path) (some .directory)) d') ∨
    ∃ e, d.make path (.directory []) = .error e := by
  by_cases hr : d.Reaches path
  · cases hfind : d.root.find? (d.place path) with
    | some item => exact .inr ⟨.exists, by simp [make, resolve_eq_ok h hr, bind, Except.bind, hfind]⟩
    | none =>
      have hnone : d.root.at? (d.place path) = none := by rw [at?, hfind]; rfl
      have hfree : d.root.at? (d.place path) ≠ some .directory := by simp [hnone]
      refine .inl ⟨d.putAt (d.place path) (.directory []), ?_, hnone, rfl, ?_⟩
      · simp [make, resolve_eq_ok h hr, bind, Except.bind, hfind]
      · obtain ⟨front, name, -, -, hplace, hparent⟩ := hr.last hfree
        rw [hplace] at hfree ⊢
        exact at?_place (fun _ => find?_empty) hparent hfree
  · obtain ⟨e, he⟩ := resolve_eq_error h hr false
    exact .inr ⟨e, by simp [make, he, bind, Except.bind]⟩

theorem isFile_iff (h : d.root.Linkless) :
    d.isFile path = true ↔
      d.Reaches path ∧ ∃ content, d.root.at? (d.place path) = some (.file content) := by
  by_cases hr : d.Reaches path
  · simp only [isFile, item?, resolve_eq_ok h hr, hr, true_and, at?_eq_file]
    split <;> simp_all
  · obtain ⟨e, he⟩ := resolve_eq_error h hr true
    simp [isFile, item?, he, hr]

theorem isDirectory_iff (h : d.root.Linkless) :
    d.isDirectory path = true ↔ d.Reaches path ∧ d.root.at? (d.place path) = some .directory := by
  by_cases hr : d.Reaches path
  · simp only [isDirectory, item?, resolve_eq_ok h hr, hr, true_and, at?_eq_directory]
    split <;> simp_all
  · obtain ⟨e, he⟩ := resolve_eq_error h hr true
    simp [isDirectory, item?, he, hr]

end Disk

end FineGrain
