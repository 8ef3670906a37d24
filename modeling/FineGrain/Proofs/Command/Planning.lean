import FineGrain.Command.Run
import FineGrain.Files.Disk
import Mathlib.Data.List.Forall2
/-!
A command makes its plan before it writes anything. Making the plan only looks at the files, so a
command that stops there leaves them alone; and what a check reports is what a run in place would write.
-/

namespace FineGrain

namespace Command

variable {σ : Type}

theorem run_bind {α β : Type} (a : StateM σ α) (f : α → StateM σ β) (s : σ) :
    (a >>= f).run s = (f (a.run s).1).run (a.run s).2 := rfl

theorem run_lift_bind {α β ε : Type} (a : StateM σ α) (f : α → ExceptT ε (StateM σ) β) (s : σ) :
    (monadLift a >>= f).run.run s = (f (a.run s).1).run.run (a.run s).2 := rfl

end Command

open Command

namespace Disk

variable {α β ε : Type} {parse : Grammar.Parser}

/-- Two disks with the same files. What was printed may differ. -/
structure SameFiles (d d' : Disk) : Prop where
  root : d'.root = d.root
  working : d'.working = d.working

namespace SameFiles

variable {d d' d'' : Disk}

theorem refl (d : Disk) : d.SameFiles d := ⟨rfl, rfl⟩

theorem symm (h : d.SameFiles d') : d'.SameFiles d := ⟨h.root.symm, h.working.symm⟩

theorem trans (h : d.SameFiles d') (h' : d'.SameFiles d'') : d.SameFiles d'' :=
  ⟨h'.root.trans h.root, h'.working.trans h.working⟩

theorem eq_printed (h : d.SameFiles d') : ∃ output errors, d' = { d with output, errors } := by
  obtain ⟨root, working, output, errors⟩ := d'
  obtain ⟨rfl, rfl⟩ := h
  exact ⟨output, errors, rfl⟩

end SameFiles

/-- Two acts that only look at files, and answer the same where they find the same files. -/
def Agree (a b : StateM Disk α) : Prop :=
  ∀ d d', d.SameFiles d' →
    (b.run d').1 = (a.run d).1 ∧ d.SameFiles (a.run d).2 ∧ d.SameFiles (b.run d').2

/-- An act that only looks at files. -/
abbrev Looks (a : StateM Disk α) : Prop := Agree a a

namespace Agree

theorem pure (v : α) : Looks (Pure.pure v) := fun d _ h => ⟨rfl, .refl d, h⟩

theorem bind {a b : StateM Disk α} {f g : α → StateM Disk β} (h : Agree a b)
    (hf : ∀ v, Agree (f v) (g v)) : Agree (a >>= f) (b >>= g) := by
  intro d d' hsame
  obtain ⟨hanswer, ha, hb⟩ := h d d' hsame
  obtain ⟨hanswer', ha', hb'⟩ := hf (a.run d).1 _ _ (ha.symm.trans hb)
  rw [← hanswer] at hb'
  exact ⟨(congrArg (fun v => ((g v).run (b.run d').2).1) hanswer).trans hanswer',
    ha.trans ha', ha.trans hb'⟩

theorem mapM {f g : α → StateM Disk β} (hf : ∀ v, Agree (f v) (g v)) (l : List α) :
    Agree (l.mapM f) (l.mapM g) := by
  induction l with
  | nil => exact .pure []
  | cons v rest ih =>
    rw [List.mapM_cons, List.mapM_cons]
    exact (hf v).bind fun _ => ih.bind fun _ => .pure _

theorem ask {f : Disk → α} (hf : ∀ d output errors, f { d with output, errors } = f d) :
    Looks (do return f (← get)) := by
  intro d d' h
  obtain ⟨output, errors, rfl⟩ := h.eq_printed
  exact ⟨hf d output errors, .refl d, h⟩

theorem ofPrints {a b : StateM Disk Unit} (ha : ∀ d : Disk, d.SameFiles (a.run d).2)
    (hb : ∀ d : Disk, d.SameFiles (b.run d).2) : Agree a b :=
  fun d d' h => ⟨rfl, ha d, h.trans (hb d')⟩

theorem print (line : String) : Looks (fileSystem.print line) :=
  .ofPrints (fun _ => ⟨rfl, rfl⟩) fun _ => ⟨rfl, rfl⟩

theorem complain (line : String) : Looks (fileSystem.complain line) :=
  .ofPrints (fun _ => ⟨rfl, rfl⟩) fun _ => ⟨rfl, rfl⟩

theorem isFile (path : String) : Looks (fileSystem.isFile path) := .ask fun _ _ _ => rfl

theorem isDirectory (path : String) : Looks (fileSystem.isDirectory path) := .ask fun _ _ _ => rfl

theorem isLink (path : String) : Looks (fileSystem.isLink path) := .ask fun _ _ _ => rfl

theorem realPath? (path : String) : Looks (fileSystem.realPath? path) := .ask fun _ _ _ => rfl

theorem entries (path : String) : Looks (fileSystem.entries path) := .ask fun _ _ _ => rfl

theorem read (path : String) : Looks (fileSystem.read path) := .ask fun _ _ _ => rfl

/-! ### Acts that can fail -/

theorem bindE {a b : ExceptT ε (StateM Disk) α} {f g : α → ExceptT ε (StateM Disk) β}
    (h : Agree a.run b.run) (hf : ∀ v, Agree (f v).run (g v).run) :
    Agree (a >>= f).run (b >>= g).run := by
  rw [ExceptT.run_bind, ExceptT.run_bind]
  refine h.bind fun v => ?_
  cases v with
  | error e => exact .pure _
  | ok v => exact hf v

theorem liftE {a b : StateM Disk α} (h : Agree a b) :
    Agree (α := Except ε α) (monadLift a : ExceptT ε (StateM Disk) α).run
      (monadLift b : ExceptT ε (StateM Disk) α).run :=
  h.bind fun _ => .pure _

theorem tellE {a b : ExceptT ε (StateM Disk) α} (line : String) (h : Agree a.run b.run)
    (tell tell' : Bool) :
    Agree (if tell then do (fileSystem.print line : StateM Disk Unit); a else a).run
      (if tell' then do (fileSystem.print line : StateM Disk Unit); b else b).run := by
  have hquiet : Agree (fileSystem.print line) (Pure.pure ⟨⟩) :=
    .ofPrints (fun _ => ⟨rfl, rfl⟩) .refl
  have hquiet' : Agree (Pure.pure ⟨⟩) (fileSystem.print line) :=
    .ofPrints .refl fun _ => ⟨rfl, rfl⟩
  cases tell <;> cases tell'
  · exact h
  · exact Agree.bindE (.liftE hquiet') fun _ => h
  · exact Agree.bindE (.liftE hquiet) fun _ => h
  · exact Agree.bindE (.liftE (.print line)) fun _ => h

end Agree

/-! ### The plan -/

theorem looks_directoryOf? (path : String) : Looks (directoryOf? fileSystem path) := by
  refine (Agree.isFile path).bind fun file => ?_
  split <;> exact .pure _

theorem looks_firstConfiguration? (directories : List String) :
    Looks (firstConfiguration? fileSystem directories) := by
  induction directories with
  | nil => exact .pure _
  | cons directory rest ih =>
    refine (Agree.isFile _).bind fun file => ?_
    split
    · exact .pure _
    · exact ih

theorem looks_findConfiguration? (path : String) : Looks (findConfiguration? fileSystem path) := by
  refine (looks_directoryOf? path).bind fun directory => ?_
  cases directory with
  | none => exact .pure _
  | some directory => exact looks_firstConfiguration? _

theorem looks_readOptions (path : String) : Looks (readOptions fileSystem path).run := by
  refine Agree.bindE (.liftE (.read path)) fun text => ?_
  cases text with
  | error e => exact .pure _
  | ok text =>
    dsimp only
    split <;> exact .pure _

theorem looks_optionsFor (named : Option String) (path : String) :
    Looks (optionsFor fileSystem named path).run := by
  unfold optionsFor
  cases named with
  | some configuration => exact looks_readOptions _
  | none =>
    refine Agree.bindE (.liftE (looks_findConfiguration? path)) fun configuration => ?_
    cases configuration with
    | none => exact .pure _
    | some configuration => exact looks_readOptions _

theorem looks_leadsBack (above : List String) (directory : String) :
    Looks (leadsBack fileSystem above directory) := by
  refine (Agree.isLink _).bind fun link => ?_
  split
  · exact (Agree.realPath? _).bind fun _ => (Agree.mapM Agree.realPath? above).bind fun _ => .pure _
  · exact .pure _

/-- The source files at one entry of a directory. -/
def sourcesAt (n : Nat) (above : List String) (directory name : String) : StateM Disk (List String) := do
  let path := Path.join directory name
  if ← fileSystem.isDirectory path then
    if skippedNames.contains name then return []
    else if ← leadsBack fileSystem above path then return []
    else sourcesBelow fileSystem n (path :: above) path
  else if ← fileSystem.isFile path then
    return if isSource path then [path] else []
  else return []

theorem sourcesBelow_succ (n : Nat) (above : List String) (directory : String) :
    sourcesBelow fileSystem (n + 1) above directory = (do
      let found ← (← fileSystem.entries directory).mapM (sourcesAt n above directory)
      return found.flatten) := rfl

theorem looks_sourcesAt {n : Nat}
    (h : ∀ above directory, Looks (sourcesBelow fileSystem n above directory)) (above : List String)
    (directory name : String) : Looks (sourcesAt n above directory name) := by
  refine (Agree.isDirectory _).bind fun isDirectory => ?_
  split
  · split
    · exact .pure _
    · refine (looks_leadsBack _ _).bind fun back => ?_
      split
      · exact .pure _
      · exact h _ _
  · refine (Agree.isFile _).bind fun file => ?_
    split <;> exact .pure _

theorem looks_sourcesBelow (n : Nat) (above : List String) (directory : String) :
    Looks (sourcesBelow fileSystem n above directory) := by
  induction n generalizing above directory with
  | zero => exact .pure _
  | succ n ih =>
    rw [sourcesBelow_succ]
    exact (Agree.entries _).bind fun names =>
      Agree.bind (.mapM (looks_sourcesAt ih above directory) names) fun _ => .pure _

theorem looks_sources (path : String) : Looks (sources fileSystem path).run := by
  refine Agree.bindE (.liftE (.isFile path)) fun file => ?_
  split
  · exact .pure _
  · refine Agree.bindE (.liftE (.isDirectory path)) fun directory => ?_
    split
    · exact Agree.bindE (.liftE (looks_sourcesBelow _ _ _)) fun _ => .pure _
    · exact .pure _

theorem agree_transformAll (parse : Grammar.Parser) (check check' : Bool) (transformer : Transformer)
    (progress : Progress) (paths : List String) :
    Agree (transformAll fileSystem parse check transformer progress paths).run
      (transformAll fileSystem parse check' transformer progress paths).run := by
  induction paths generalizing transformer progress with
  | nil => exact .pure _
  | cons path rest ih =>
    refine Agree.bindE (.liftE (.read path)) fun text => ?_
    cases text with
    | error e => exact .pure _
    | ok text =>
      dsimp only
      cases (transformer.transform (some path) text.toList parse).1 with
      | ok output =>
        exact Agree.tellE _ (Agree.bindE (ih _ _) fun _ => .pure _) _ _
      | error e =>
        exact Agree.bindE (.liftE (.complain _)) fun _ => Agree.bindE (ih _ _) fun _ => .pure _

/-! ### What the plan is -/

def answer (d : Disk) (a : ExceptT ε (StateM Disk) α) : Except ε α := (a.run.run d).1

theorem answer_lift_bind (d : Disk) (a : StateM Disk α) (f : α → ExceptT ε (StateM Disk) β) :
    d.answer (monadLift a >>= f) = (a.run d).2.answer (f (a.run d).1) := rfl

theorem answer_congr {d d' : Disk} {a b : ExceptT ε (StateM Disk) α} (hsame : d.SameFiles d')
    (h : Agree a.run b.run) : d'.answer b = d.answer a := (h d d' hsame).1

theorem answer_bind {d : Disk} {a : ExceptT ε (StateM Disk) α} {f : α → ExceptT ε (StateM Disk) β}
    (ha : Looks a.run) (hf : ∀ v, Looks (f v).run) : d.answer (a >>= f) = match d.answer a with
      | .ok v => d.answer (f v)
      | .error e => .error e := by
  have hafter : d.SameFiles (a.run.run d).2 := (ha d d (.refl d)).2.1
  have hrun : d.answer (a >>= f) = match d.answer a with
      | .ok v => (a.run.run d).2.answer (f v)
      | .error e => .error e := by
    rw [answer, answer, ExceptT.run_bind, StateT.run_bind]
    rcases a.run.run d with ⟨_ | _, _⟩ <;> rfl
  rw [hrun]
  cases d.answer a with
  | error e => rfl
  | ok v => exact answer_congr hafter (hf v)

/-- A source file as a plan has it: its text, and the transform of its text. -/
structure Planned (parse : Grammar.Parser) (d : Disk) (options : Options) (name : String)
    (file : SourceFile) : Prop where
  path : file.path = name
  original : d.read name = .ok file.original
  output : ∃ output, file.output = String.ofList output ∧
    (Transform.onFrame parse options (some name) file.original.toList .empty).1 = .ok output

theorem read_of_planned {d : Disk} {options : Options} {paths : List String} {files : List SourceFile}
    (h : List.Forall₂ (Planned parse d options) paths files) :
    files.map (·.path) = paths ∧ ∀ file ∈ files, d.read file.path = .ok file.original := by
  induction h with
  | nil => exact ⟨rfl, by simp⟩
  | cons hfile _ ih =>
    obtain ⟨hpaths, hread⟩ := ih
    refine ⟨by rw [List.map_cons, hfile.path, hpaths], fun f hf => ?_⟩
    rcases List.mem_cons.1 hf with rfl | hf
    · rw [hfile.path]
      exact hfile.original
    · exact hread f hf

theorem transform_eq (t : Transformer) (path : Option String) (source : List Char) :
    t.transform path source parse = ((Transform.onFrame parse t.options path source .empty).1, t) := rfl

theorem answer_transformAll_cons (d : Disk) (check : Bool) (t : Transformer) (progress : Progress)
    (path : String) (rest : List String) :
    d.answer (transformAll fileSystem parse check t progress (path :: rest)) =
      match d.read path with
      | .error e => .error (.file .read path e)
      | .ok text =>
        match (Transform.onFrame parse t.options (some path) text.toList .empty).1,
          d.answer (transformAll fileSystem parse check t progress.next rest) with
        | .ok output, .ok (files, failed) => .ok (⟨path, text, String.ofList output⟩ :: files, failed)
        | .error _, .ok (files, failed) => .ok (files, failed + 1)
        | _, .error e => .error e := by
  -- What is printed on the way changes no file, so the rest of the files is planned as it would be
  -- before.
  have hrest {d' : Disk} (hsame : d.SameFiles d') (g : List SourceFile × Nat → List SourceFile × Nat) :
      d'.answer (do return g (← transformAll fileSystem parse check t progress.next rest)) =
        match d.answer (transformAll fileSystem parse check t progress.next rest) with
        | .ok r => .ok (g r)
        | .error e => .error e := by
    have hlooks := agree_transformAll parse check check t progress.next rest
    refine (answer_bind hlooks fun _ => .pure _).trans ?_
    rw [answer_congr hsame hlooks]
    cases d.answer (transformAll fileSystem parse check t progress.next rest) <;> rfl
  rw [transformAll]
  refine (answer_lift_bind _ _ _).trans ?_
  rw [show (fileSystem.read path).run d = (d.read path, d) from rfl]
  cases d.read path with
  | error e => rfl
  | ok text =>
    dsimp only
    rw [transform_eq]
    cases (Transform.onFrame parse t.options (some path) text.toList .empty).1 with
    | ok output =>
      dsimp only
      split
      · refine (answer_lift_bind _ _ _).trans ?_
        refine (hrest ?_ _).trans ?_
        · exact ⟨rfl, rfl⟩
        · cases d.answer (transformAll fileSystem parse check t progress.next rest) <;> rfl
      · refine (hrest (.refl d) _).trans ?_
        cases d.answer (transformAll fileSystem parse check t progress.next rest) <;> rfl
    | error e =>
      refine (answer_lift_bind _ _ _).trans ?_
      refine (hrest ?_ _).trans ?_
      · exact ⟨rfl, rfl⟩
      · cases d.answer (transformAll fileSystem parse check t progress.next rest) <;> rfl

theorem answer_transformAll_iff (d : Disk) (check : Bool) (t : Transformer) (progress : Progress)
    (paths : List String) (files : List SourceFile) :
    d.answer (transformAll fileSystem parse check t progress paths) = .ok (files, 0) ↔
      List.Forall₂ (Planned parse d t.options) paths files := by
  induction paths generalizing progress files with
  | nil =>
    rw [List.forall₂_nil_left_iff]
    exact ⟨fun h => by cases h; rfl, fun h => by rw [h]; rfl⟩
  | cons path rest ih =>
    -- A file is read and transformed, or counted as failed; no failed one is left where none is counted.
    rw [answer_transformAll_cons, List.forall₂_cons_left_iff]
    constructor
    · intro h
      cases hread : d.read path with
      | error e =>
        rw [hread] at h
        cases h
      | ok text =>
        rw [hread] at h
        dsimp only at h
        generalize hunit : (Transform.onFrame parse t.options (some path) text.toList .empty).1 = unit at h
        cases hrest : d.answer (transformAll fileSystem parse check t progress.next rest) with
        | error e =>
          rw [hrest] at h
          cases unit <;> cases h
        | ok planned =>
          obtain ⟨more, failed⟩ := planned
          rw [hrest] at h
          cases unit with
          | error e => cases h
          | ok output =>
            cases h
            exact ⟨⟨path, text, String.ofList output⟩, more, ⟨rfl, hread, output, rfl, hunit⟩,
              (ih _ _).1 hrest, rfl⟩
    · rintro ⟨file, more, ⟨hpath, hread, output, houtput, htransform⟩, hmore, rfl⟩
      obtain ⟨name, original, result⟩ := file
      obtain rfl : name = path := hpath
      obtain rfl : result = String.ofList output := houtput
      rw [hread, (ih progress.next more).2 hmore]
      dsimp only at htransform ⊢
      rw [htransform]

end Disk

namespace Command

/-- What a request is going to write: the files with their transforms, and how many have none. -/
def plan {m : Type → Type} [Monad m] (fs : FileSystem m) (parse : Grammar.Parser) (request : Request) :
    ExceptT CommandError m (List SourceFile × Nat) := do
  let options ← optionsFor fs request.config request.path
  let paths ← sources fs request.path
  transformAll fs parse request.check (.ofOptions options) (.first paths.length) paths

/-- Why there is no plan: over the configuration, a file that cannot be read, or the path. -/
inductive Early : CommandError → Prop
  | configuration : Early .configuration
  | read (path : String) (e : FileError) : Early (.file .read path e)
  | missingPath (path : String) : Early (.missingPath path)

end Command

namespace Disk

variable {parse : Grammar.Parser} {d : Disk} {request : Request} {files : List SourceFile}

theorem answer_plan (d : Disk) (request : Request) (check : Bool) (outDir : Option String) :
    d.answer (plan fileSystem parse { request with check, outDir }) = d.answer (plan fileSystem parse request) :=
  answer_congr (.refl d) <| Agree.bindE (looks_optionsFor _ _) fun _ =>
    Agree.bindE (looks_sources _) fun _ => agree_transformAll _ _ _ _ _ _

theorem answer_plan_iff (d : Disk) (request : Request) (files : List SourceFile) :
    d.answer (plan fileSystem parse request) = .ok (files, 0) ↔
      ∃ options paths, d.answer (optionsFor fileSystem request.config request.path) = .ok options ∧
        d.answer (sources fileSystem request.path) = .ok paths ∧
        List.Forall₂ (Planned parse d options) paths files := by
  have hrest (options : Options) : Looks (do
      let paths ← sources fileSystem request.path
      transformAll fileSystem parse request.check (.ofOptions options) (.first paths.length) paths :
        ExceptT CommandError (StateM Disk) (List SourceFile × Nat)).run :=
    Agree.bindE (looks_sources _) fun _ => agree_transformAll _ _ _ _ _ _
  rw [plan, answer_bind (looks_optionsFor _ _) hrest]
  cases d.answer (optionsFor fileSystem request.config request.path) with
  | error e => simp
  | ok options =>
    dsimp only
    rw [answer_bind (looks_sources _) fun _ => agree_transformAll _ _ _ _ _ _]
    cases d.answer (sources fileSystem request.path) with
    | error e => simp
    | ok paths =>
      simp [answer_transformAll_iff, Transformer.ofOptions]

/-! ### Why there is no plan -/

theorem early_optionsFor {named : Option String} {path : String} {e : CommandError}
    (h : d.answer (optionsFor fileSystem named path) = .error e) : Early e := by
  have hread {configuration : String} {d' : Disk}
      (h : d'.answer (readOptions fileSystem configuration) = .error e) : Early e := by
    rw [readOptions] at h
    replace h := (answer_lift_bind _ _ _).symm.trans h
    rw [show (fileSystem.read configuration).run d' = (d'.read configuration, d') from rfl] at h
    cases hread : d'.read configuration with
    | error e =>
      rw [hread] at h
      cases h
      exact .read _ _
    | ok text =>
      rw [hread] at h
      dsimp only at h
      split at h <;> cases h
      exact .configuration
  unfold optionsFor at h
  cases named with
  | some configuration => exact hread h
  | none =>
    replace h := (answer_lift_bind _ _ _).symm.trans h
    revert h
    generalize ((findConfiguration? fileSystem path).run d) = found
    obtain ⟨_ | configuration, d'⟩ := found
    · rintro ⟨⟩
    · exact hread

theorem early_sources {path : String} {e : CommandError}
    (h : d.answer (sources fileSystem path) = .error e) : Early e := by
  rw [sources] at h
  replace h := (answer_lift_bind _ _ _).symm.trans h
  split at h
  · cases h
  replace h := (answer_lift_bind _ _ _).symm.trans h
  split at h
  · cases h
  · cases h
    exact .missingPath _

theorem early_transformAll {check : Bool} {t : Transformer} {progress : Progress} {paths : List String}
    {e : CommandError} (h : d.answer (transformAll fileSystem parse check t progress paths) = .error e) :
    Early e := by
  induction paths generalizing progress with
  | nil => cases h
  | cons path rest ih =>
    rw [answer_transformAll_cons] at h
    cases hread : d.read path with
    | error e =>
      rw [hread] at h
      cases h
      exact .read _ _
    | ok text =>
      rw [hread] at h
      dsimp only at h
      generalize (Transform.onFrame parse t.options (some path) text.toList .empty).1 = unit at h
      cases hrest : d.answer (transformAll fileSystem parse check t progress.next rest) with
      | error e' =>
        rw [hrest] at h
        cases unit <;> cases h <;> exact ih hrest
      | ok planned =>
        rw [hrest] at h
        cases unit <;> cases h

theorem early_plan {e : CommandError} (h : d.answer (plan fileSystem parse request) = .error e) : Early e := by
  rw [plan, answer_bind (looks_optionsFor _ _) fun _ => Agree.bindE (looks_sources _) fun _ =>
    agree_transformAll _ _ _ _ _ _] at h
  cases hoptions : d.answer (optionsFor fileSystem request.config request.path) with
  | error e' =>
    rw [hoptions] at h
    cases h
    exact early_optionsFor hoptions
  | ok options =>
    rw [hoptions] at h
    dsimp only at h
    rw [answer_bind (looks_sources _) fun _ => agree_transformAll _ _ _ _ _ _] at h
    cases hpaths : d.answer (sources fileSystem request.path) with
    | error e' =>
      rw [hpaths] at h
      cases h
      exact early_sources hpaths
    | ok paths =>
      rw [hpaths] at h
      exact early_transformAll h

/-! ### What becomes of the plan -/

theorem looks_print (check : Bool) (s : Summary) : Looks (s.print fileSystem check) :=
  (Agree.print _).bind fun _ => Agree.print _

theorem Looks.sameFiles {a : ExceptT CommandError (StateM Disk) Unit} (h : Looks a.run) (d : Disk) :
    d.SameFiles (a.run.run d).2 := (h d d (.refl d)).2.1

theorem looks_conclude (files : List SourceFile) {failed : Nat} (h : request.check = true ∨ 0 < failed) :
    Looks (conclude fileSystem request files failed).run := by
  rw [conclude]
  split
  · exact Agree.bindE (.liftE (looks_print _ _)) fun _ => .pure _
  next hfailed =>
    rw [if_pos (h.resolve_right hfailed)]
    refine Agree.bindE (.liftE (looks_print _ _)) fun _ => ?_
    split <;> exact .pure _

theorem run_looks_bind {a : ExceptT ε (StateM Disk) α} (ha : Looks a.run)
    (f : α → ExceptT ε (StateM Disk) β) (d : Disk) :
    ∃ d', d.SameFiles d' ∧ (a >>= f).run.run d = match d.answer a with
      | .ok v => (f v).run.run d'
      | .error e => (.error e, d') := by
  refine ⟨(a.run.run d).2, (ha d d (.refl d)).2.1, ?_⟩
  rw [answer, ExceptT.run_bind, StateT.run_bind]
  rcases a.run.run d with ⟨_ | _, _⟩ <;> rfl

theorem run_transform (d : Disk) (request : Request) : ∃ d', d.SameFiles d' ∧
    match d.answer (plan fileSystem parse request) with
    | .error e => (transform fileSystem parse request).run.run d = (.error e, d')
    | .ok (files, failed) =>
      (transform fileSystem parse request).run.run d = (conclude fileSystem request files failed).run.run d' ∨
        (files = [] ∧ failed = 0 ∧ (transform fileSystem parse request).run.run d = (.ok ⟨⟩, d')) := by
  -- The command runs the very looks that the plan is the answer of, so both go through the same
  -- stages.
  rw [plan, answer_bind (looks_optionsFor _ _) fun _ => Agree.bindE (looks_sources _) fun _ =>
    agree_transformAll _ _ _ _ _ _, transform]
  obtain ⟨d₁, h₁, hrun₁⟩ := run_looks_bind (looks_optionsFor request.config request.path) _ d
  rw [hrun₁]
  cases d.answer (optionsFor fileSystem request.config request.path) with
  | error e => exact ⟨d₁, h₁, rfl⟩
  | ok options =>
    dsimp only
    rw [answer_bind (looks_sources _) fun _ => agree_transformAll _ _ _ _ _ _]
    obtain ⟨d₂, h₂, hrun₂⟩ := run_looks_bind (looks_sources request.path) _ d₁
    rw [hrun₂, answer_congr h₁ (looks_sources _)]
    cases d.answer (sources fileSystem request.path) with
    | error e => exact ⟨d₂, h₁.trans h₂, rfl⟩
    | ok paths =>
      dsimp only
      cases paths with
      | nil =>
        let told := fileSystem.print ("No source files found in " ++ request.path)
        exact ⟨(told.run d₂).2, (h₁.trans h₂).trans ⟨rfl, rfl⟩, .inr ⟨rfl, rfl, rfl⟩⟩
      | cons path rest =>
        have hall := agree_transformAll parse request.check request.check (.ofOptions options)
          (.first (path :: rest).length) (path :: rest)
        rw [if_neg (by simp)]
        obtain ⟨d₃, h₃, hrun₃⟩ := run_looks_bind hall _ d₂
        rw [hrun₃, answer_congr (h₁.trans h₂) hall]
        refine ⟨d₃, (h₁.trans h₂).trans h₃, ?_⟩
        cases d.answer (transformAll fileSystem parse request.check (.ofOptions options)
          (.first (path :: rest).length) (path :: rest)) with
        | error e => rfl
        | ok planned => exact .inl rfl

/-- All or nothing: a check writes nothing, and neither does a command without a plan for all of its
files. -/
theorem sameFiles_transform (d : Disk) (request : Request)
    (h : request.check = true ∨ ∀ files, d.answer (plan fileSystem parse request) ≠ .ok (files, 0)) :
    d.SameFiles ((transform fileSystem parse request).run.run d).2 := by
  obtain ⟨d', hsame, hrun⟩ := run_transform d request
  cases hplan : d.answer (plan fileSystem parse request) with
  | error e =>
    rw [hplan] at hrun
    rw [show (transform fileSystem parse request).run.run d = _ from hrun]
    exact hsame
  | ok planned =>
    obtain ⟨files, failed⟩ := planned
    rw [hplan] at hrun
    rcases hrun with hrun | ⟨-, -, hrun⟩
    · have hlooks : request.check = true ∨ 0 < failed :=
        h.imp_right fun hnone => Nat.pos_of_ne_zero fun h0 => hnone files (by rw [hplan, h0])
      rw [hrun]
      exact hsame.trans ((looks_conclude files hlooks).sameFiles d')
    · rw [hrun]
      exact hsame

theorem answer_check (d : Disk) (request : Request) (hcheck : request.check = true) :
    d.answer (transform fileSystem parse request) = match d.answer (plan fileSystem parse request) with
      | .error e => .error e
      | .ok (files, failed) =>
        if 0 < failed then .error (.failed failed)
        else if 0 < files.countP (·.changed) then .error (.wouldRewrite (files.countP (·.changed)))
        else .ok ⟨⟩ := by
  obtain ⟨d', hsame, hrun⟩ := run_transform d request
  cases hplan : d.answer (plan fileSystem parse request) with
  | error e =>
    rw [hplan] at hrun
    exact congrArg Prod.fst hrun
  | ok planned =>
    obtain ⟨files, failed⟩ := planned
    rw [hplan] at hrun
    rcases hrun with hrun | ⟨rfl, rfl, hrun⟩
    · rw [answer, hrun, conclude]
      by_cases hfailed : 0 < failed
      · simp only [if_pos hfailed]
        rfl
      · by_cases hchanged : 0 < files.countP (·.changed)
        · simp only [if_neg hfailed, if_pos hcheck, if_pos hchanged,
            show (Summary.ofFiles files failed).rewritten = files.countP (·.changed) from rfl]
          rfl
        · simp only [if_neg hfailed, if_pos hcheck, if_neg hchanged,
            show (Summary.ofFiles files failed).rewritten = files.countP (·.changed) from rfl]
          rfl
    · exact congrArg Prod.fst hrun

/-- A check that reports how many files it would rewrite tells of the plan that a run in place has. -/
theorem check_tells (d : Disk) (request : Request) (hcheck : request.check = true) (n : Nat) :
    d.answer (transform fileSystem parse request) = .error (.wouldRewrite n) ↔
      0 < n ∧ ∃ files, d.answer (plan fileSystem parse { request with check := false }) = .ok (files, 0) ∧
        files.countP (·.changed) = n := by
  rw [answer_check d request hcheck, answer_plan d request false request.outDir]
  -- A check and a run in place have one plan: no plan, one that lacks some files, or one of all of
  -- them.
  cases hplan : d.answer (plan fileSystem parse request) with
  | error e =>
    have hearly := early_plan hplan
    constructor
    · intro h
      cases h
      cases hearly
    · rintro ⟨-, files, h, -⟩
      cases h
  | ok planned =>
    obtain ⟨files, failed⟩ := planned
    dsimp only
    split
    next hfailed =>
      constructor
      · rintro ⟨⟩
      · rintro ⟨-, files', h, -⟩
        cases h
        cases hfailed
    next hfailed =>
      obtain rfl : failed = 0 := Nat.eq_zero_of_not_pos hfailed
      split
      next hchanged =>
        constructor
        · rintro ⟨⟩
          exact ⟨hchanged, files, rfl, rfl⟩
        · rintro ⟨-, files', h, rfl⟩
          cases h
          rfl
      next hchanged =>
        constructor
        · rintro ⟨⟩
        · rintro ⟨hn, files', h, rfl⟩
          cases h
          exact absurd hn hchanged

theorem run_writing (d : Disk) (request : Request) (hcheck : request.check = false)
    (hplan : d.answer (plan fileSystem parse request) = .ok (files, 0)) :
    ∃ d', d.SameFiles d' ∧ ((transform fileSystem parse request).run.run d = (do
        match request.outDir with
          | some outDir => writeMirror fileSystem request.path outDir (.first files.length) files
          | none => writeInPlace fileSystem [] (.first files.length) files
        ((Summary.ofFiles files 0).print fileSystem false : StateM Disk Unit) :
          ExceptT CommandError (StateM Disk) Unit).run.run d' ∨
      files = [] ∧ (transform fileSystem parse request).run.run d = (.ok ⟨⟩, d')) := by
  obtain ⟨d', hsame, hrun⟩ := run_transform d request
  rw [hplan] at hrun
  refine ⟨d', hsame, hrun.imp (fun hrun => ?_) fun ⟨hnil, _, hrun⟩ => ⟨hnil, hrun⟩⟩
  rw [hrun, conclude]
  cases request.outDir <;> simp only [Nat.lt_irrefl, if_false, hcheck, Bool.false_eq_true]

end Disk

end FineGrain
