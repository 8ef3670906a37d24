import FineGrain.Proofs.Command.Collecting
import FineGrain.Proofs.Files.Walk
/-!
Writing to a mirrored tree. Whatever is collected below a directory lies there under names; its place in
the mirrored tree is under the same names, so no two files share a place.
-/

namespace FineGrain

open Command FineGrain.Path

/-! ### Places -/

namespace Disk

variable {d : Disk} {path outDir : String} {paths : List String}

theorem mirrored_below {directory : String} {names : List String} (outDir : String)
    (hdirectory : directory ≠ "") (hsome : names ≠ [])
    (h : ∀ name ∈ names, Proper name) :
    mirrored directory outDir (below directory names) = below outDir names := by
  rw [mirrored, relativeTo?_below hdirectory h, Option.getD_some, below_eq_join hsome h]

theorem run_mirrorBase (d : Disk) (root : String) : (mirrorBase fileSystem root).run d =
    (if d.isFile root then (Path.parent? root).getD root else root, d) := by
  rw [mirrorBase, run_bind]
  rw [show (fileSystem.isFile root).run d = (d.isFile root, d) from rfl]
  cases d.isFile root <;> rfl

theorem place_mirrored_injective (h : d.Listed) (hpaths : d.answer (sources fileSystem path) = .ok paths)
    {base : String} (hbase : ((mirrorBase fileSystem path).run d).1 = base) {p q : String}
    (hp : p ∈ paths) (hq : q ∈ paths)
    (heq : d.place (mirrored base outDir p) = d.place (mirrored base outDir q)) : p = q := by
  rcases sources_below h hpaths with hsame | ⟨hfile, hdirectory, hbelow⟩
  · rw [hsame p hp, hsame q hq]
  · obtain ⟨names, hsome, hnames, rfl⟩ := hbelow p hp
    obtain ⟨names', hsome', hnames', rfl⟩ := hbelow q hq
    have hpath := ne_empty_of_isDirectory hdirectory
    rw [run_mirrorBase, hfile] at hbase
    obtain rfl : path = base := hbase
    rw [mirrored_below outDir hpath hsome hnames, mirrored_below outDir hpath hsome' hnames',
      place_below d outDir hnames, place_below d outDir hnames'] at heq
    rw [List.append_cancel_left heq]

end Disk

/-! ### Writing -/

namespace Command

variable {σ : Type} {fs : FileSystem (StateM σ)} {s : σ}

theorem run_write (fs : FileSystem (StateM σ)) (path text : String) (s : σ) : (do
      match ← fs.write path text with
      | .ok () => return ()
      | .error e => throw (.file .write path e) : ExceptT CommandError (StateM σ) Unit).run.run s =
    (((fs.write path text).run s).1.mapError (.file .write path), ((fs.write path text).run s).2) := by
  refine (run_lift_bind _ _ s).trans ?_
  rcases (fs.write path text).run s with ⟨_ | _, _⟩ <;> rfl

theorem writeWithParents_none {path : String} (h : Path.parent? path = none) (text : String) :
    (writeWithParents fs path text).run.run s =
      (((fs.write path text).run s).1.mapError (.file .write path), ((fs.write path text).run s).2) := by
  rw [writeWithParents, h]
  exact run_write fs path text s

theorem writeWithParents_some {path parent : String} (h : Path.parent? path = some parent)
    (text : String) :
    (writeWithParents fs path text).run.run s =
      match (makeDirectories fs (Path.ancestors parent)).run s with
      | (.ok (), s₁) =>
        (((fs.write path text).run s₁).1.mapError (.file .write path), ((fs.write path text).run s₁).2)
      | (.error e, s₁) => (.error (.file .create parent e), s₁) := by
  rw [writeWithParents, h]
  refine (run_lift_bind _ _ s).trans ?_
  rcases (makeDirectories fs (Path.ancestors parent)).run s with ⟨_ | _, s₁⟩
  · rfl
  · exact run_write fs path text s₁

theorem writeMirror_cons (root outDir : String) (progress : Progress) (file : SourceFile)
    (rest : List SourceFile) {base : String} (hbase : ((mirrorBase fs root).run s).1 = base) :
    (writeMirror fs root outDir progress (file :: rest)).run.run s =
      match (writeWithParents fs (mirrored base outDir file.path) file.output).run.run
        ((mirrorBase fs root).run s).2 with
      | (.ok (), s₁) => (writeMirror fs root outDir progress.next rest).run.run ((fs.print (progress.line
          ((if file.changed then "Rewritten: " else "Copied: ") ++ mirrored base outDir file.path))).run s₁).2
      | (.error e, s₁) => (.error e, s₁) := by
  subst hbase
  refine (run_lift_bind _ _ s).trans ?_
  rw [ExceptT.run_bind]
  refine (run_bind _ _ _).trans ?_
  rcases (writeWithParents fs (mirrored ((mirrorBase fs root).run s).1 outDir file.path)
      file.output).run.run ((mirrorBase fs root).run s).2 with ⟨_ | _, _⟩ <;> rfl

end Command

namespace Disk

open FineGrain.Tree

variable {parse : Grammar.Parser} {d d' d₁ d₂ : Disk} {written written' : List String → Prop}
  {path text root outDir base : String} {files : List SourceFile} {progress : Progress}

/-- Files have been written at some places. Elsewhere there are new directories at most. -/
structure Grown (written : List String → Prop) (d d' : Disk) : Prop where
  working : d'.working = d.working
  linkless : d'.root.Linkless
  directories : ∀ location, d.root.at? location = some .directory → d'.root.at? location = some .directory
  files : ∀ location content, d.root.at? location = some (.file content) →
    ∃ content', d'.root.at? location = some (.file content')
  elsewhere : ∀ location, ¬ written location → d'.root.at? location = d.root.at? location ∨
    d.root.at? location = none ∧ d'.root.at? location = some .directory

namespace Grown

theorem refl (h : d.root.Linkless) : Grown written d d :=
  ⟨rfl, h, fun _ h => h, fun _ content h => ⟨content, h⟩, fun _ _ => .inl rfl⟩

theorem trans (h : Grown written d d₁) (h' : Grown written d₁ d₂) : Grown written d d₂ where
  working := h'.working.trans h.working
  linkless := h'.linkless
  directories location hl := h'.directories location (h.directories location hl)
  files location content hl := by
    obtain ⟨content', hl'⟩ := h.files location content hl
    exact h'.files location content' hl'
  elsewhere location hl := by
    rcases h.elsewhere location hl with h₁ | ⟨hnone, h₁⟩
    · rw [← h₁]
      exact h'.elsewhere location hl
    · exact .inr ⟨hnone, h'.directories location h₁⟩

theorem mono (h : Grown written d d') (hsub : ∀ location, written location → written' location) :
    Grown written' d d' :=
  ⟨h.working, h.linkless, h.directories, h.files,
    fun location hl => h.elsewhere location (mt (hsub location) hl)⟩

theorem place (h : Grown written d d') (path : String) : d'.place path = d.place path := by
  rw [Disk.place, Disk.place, h.working]

theorem reaches (h : Grown written d d') (hr : d.Reaches path) : d'.Reaches path := by
  refine ⟨hr.something, hr.short, ?_⟩
  rw [h.working]
  exact hr.passes.mono h.directories

theorem of_sameFiles (h : Grown written d₁ d₂) (hbefore : d.SameFiles d₁) (hafter : d₂.SameFiles d') :
    Grown written d d' := by
  obtain ⟨output, errors, rfl⟩ := hbefore.eq_printed
  obtain ⟨output', errors', rfl⟩ := hafter.eq_printed
  exact ⟨h.working, h.linkless, h.directories, h.files, h.elsewhere⟩

theorem directory (h : d.root.Linkless) (hnone : d.root.at? (d.place path) = none)
    (hd' : d.Becomes (Function.update d.root.at? (d.place path) (some .directory)) d') :
    Grown written d d' where
  working := hd'.working
  linkless location target := by
    rw [hd'.look, Function.update_apply]
    split
    · simp
    · exact h location target
  directories location hl := by
    rw [hd'.look, Function.update_apply, hl, ite_self]
  files location content hl := by
    refine ⟨content, ?_⟩
    rw [hd'.look, Function.update_of_ne, hl]
    rintro rfl
    cases hnone.symm.trans hl
  elsewhere location _ := by
    rw [hd'.look, Function.update_apply]
    split
    next heq => exact .inr ⟨heq ▸ hnone, rfl⟩
    next => exact .inl rfl

theorem file (h : d.root.Linkless) (hw : d.Writable path) {content : Content}
    (hd' : d.Becomes (Function.update d.root.at? (d.place path) (some (.file content))) d') :
    Grown (· = d.place path) d d' where
  working := hd'.working
  linkless location target := by
    rw [hd'.look, Function.update_apply]
    split
    · simp
    · exact h location target
  directories location hl := by
    rw [hd'.look, Function.update_of_ne, hl]
    rintro rfl
    exact hw.free hl
  files location old hl := by
    rw [hd'.look, Function.update_apply]
    split
    · exact ⟨content, rfl⟩
    · exact ⟨old, hl⟩
  elsewhere location hl := by
    rw [hd'.look, Function.update_of_ne hl]
    exact .inl rfl

end Grown

theorem grown_makeDirectory (h : d.root.Linkless) (path : String) :
    Grown written d ((fileSystem.makeDirectory path).run d).2 := by
  rcases make_cases h path with ⟨d', hmake, hnone, hd'⟩ | ⟨e, hmake⟩
  · have hrun : (fileSystem.makeDirectory path).run d = (.ok (), d') := run_attempt_ok hmake
    rw [hrun]
    exact .directory h hnone hd'
  · have hrun : (fileSystem.makeDirectory path).run d = (.error e, d) := run_attempt_error hmake
    rw [hrun]
    exact .refl h

theorem run_settle (directory : String) (outcome : Except FileError Unit) (d : Disk) :
    ((makeDirectories.settle fileSystem directory outcome).run d).2 = d := by
  cases outcome with
  | ok _ => rfl
  | error e =>
    rw [makeDirectories.settle, run_bind]
    split <;> rfl

theorem grown_makeDirectories (h : d.root.Linkless) (directories : List String) :
    Grown written d ((makeDirectories fileSystem directories).run d).2 := by
  induction directories generalizing d with
  | nil => exact .refl h
  | cons directory above ih =>
    rw [makeDirectories]
    split
    · exact .refl h
    rw [run_bind]
    have hmade : Grown written d ((fileSystem.makeDirectory directory).run d).2 :=
      grown_makeDirectory h directory
    split
    · exact hmade
    · rw [run_bind]
      have habove := hmade.trans (ih hmade.linkless)
      split
      · exact habove
      · rw [run_bind, run_settle]
        exact habove.trans (grown_makeDirectory habove.linkless directory)
    · rw [run_settle]
      exact hmade

theorem writeWithParents_ok (h : d.root.Linkless) (path text : String)
    (hok : ((writeWithParents fileSystem path text).run.run d).1 = .ok ()) :
    let d' := ((writeWithParents fileSystem path text).run.run d).2
    Grown (· = d.place path) d d' ∧ d'.read path = .ok text := by
  have hwrite {d₁ : Disk} (hgrown : Grown (· = d.place path) d d₁)
      (hok : ((fileSystem.write path text).run d₁).1.mapError (CommandError.file .write path) = .ok ()) :
      let d' := ((fileSystem.write path text).run d₁).2
      Grown (· = d.place path) d d' ∧ d'.read path = .ok text := by
    by_cases hw : d₁.Writable path
    · obtain ⟨d', hwritten, hd'⟩ := writeContent_ok hgrown.linkless hw (.text text)
      have hrun : (fileSystem.write path text).run d₁ = (.ok (), d') := run_attempt_ok hwritten
      have hfile := Grown.file hgrown.linkless hw hd'
      rw [hrun]
      rw [hgrown.place] at hfile
      refine ⟨hgrown.trans hfile, (read_eq_ok_iff hfile.linkless).2 ⟨hfile.reaches hw.reaches, ?_⟩⟩
      rw [hfile.place, hd'.look, Function.update_self]
    · obtain ⟨e, he⟩ := writeContent_error hgrown.linkless hw (.text text)
      have hrun : (fileSystem.write path text).run d₁ = (.error e, d₁) := run_attempt_error he
      rw [hrun] at hok
      cases hok
  cases hparent : Path.parent? path with
  | none =>
    rw [writeWithParents_none hparent] at hok ⊢
    exact hwrite (.refl h) hok
  | some parent =>
    rw [writeWithParents_some hparent] at hok ⊢
    have hmade : Grown (· = d.place path) d
      ((makeDirectories fileSystem (Path.ancestors parent)).run d).2 :=
      grown_makeDirectories h _
    rcases hrun : (makeDirectories fileSystem (Path.ancestors parent)).run d with ⟨e | _, d₁⟩ <;>
      rw [hrun] at hok hmade
    · cases hok
    · exact hwrite hmade hok

theorem Grown.isFile (h : Grown written d d') (hlinks : d.root.Linkless)
    (hroot : d.isFile root = true ∨ d.isDirectory root = true) :
    d'.isFile root = d.isFile root ∧ (d'.isFile root = true ∨ d'.isDirectory root = true) := by
  rcases hroot with hfile | hdirectory
  · obtain ⟨hr, content, hat⟩ := (isFile_iff hlinks).1 hfile
    obtain ⟨content', hat'⟩ := h.files _ content hat
    have hfile' : d'.isFile root = true :=
      (isFile_iff h.linkless).2 ⟨h.reaches hr, content', by rw [h.place, hat']⟩
    exact ⟨hfile'.trans hfile.symm, .inl hfile'⟩
  · obtain ⟨hr, hat⟩ := (isDirectory_iff hlinks).1 hdirectory
    have hat' := h.directories _ hat
    have hnot {d : Disk} (hlinks : d.root.Linkless) (hat : d.root.at? (d.place root) = some .directory) :
        d.isFile root = false := by
      rw [Bool.eq_false_iff, ne_eq, isFile_iff hlinks]
      rintro ⟨-, content, hfile⟩
      cases hat.symm.trans hfile
    rw [← h.place] at hat'
    exact ⟨(hnot h.linkless hat').trans (hnot hlinks hat).symm,
      .inr ((isDirectory_iff h.linkless).2 ⟨h.reaches hr, hat'⟩)⟩

/-- The files of a plan in their places in the mirrored tree, on a disk that has new directories at most
besides. -/
structure Mirrored (d : Disk) (base outDir : String) (files : List SourceFile) (d' : Disk) : Prop where
  output : ∀ file ∈ files, d'.read (mirrored base outDir file.path) = .ok file.output
  grown : Grown (fun location => ∃ file ∈ files, location = d.place (mirrored base outDir file.path)) d d'

theorem Mirrored.of_sameFiles (h : d₁.Mirrored base outDir files d₂) (hbefore : d.SameFiles d₁)
    (hafter : d₂.SameFiles d') : d.Mirrored base outDir files d' := by
  refine ⟨?_, ?_⟩
  · obtain ⟨output, errors, rfl⟩ := hafter.eq_printed
    exact h.output
  · obtain ⟨output, errors, rfl⟩ := hbefore.eq_printed
    exact h.grown.of_sameFiles ⟨rfl, rfl⟩ hafter

theorem writeMirror_ok (h : d.root.Linkless) (hroot : d.isFile root = true ∨ d.isDirectory root = true)
    (hbase : ((mirrorBase fileSystem root).run d).1 = base)
    (hplaces : (files.map fun file => d.place (mirrored base outDir file.path)).Nodup)
    (hok : ((writeMirror fileSystem root outDir progress files).run.run d).1 = .ok ()) :
    d.Mirrored base outDir files ((writeMirror fileSystem root outDir progress files).run.run d).2 := by
  induction files generalizing d progress with
  | nil => exact ⟨by simp, .refl h⟩
  | cons file rest ih =>
    obtain ⟨hplace, hrest⟩ := List.nodup_cons.1 hplaces
    rw [writeMirror_cons root outDir progress file rest hbase, run_mirrorBase] at hok ⊢
    dsimp only at hok ⊢
    have hwritten := writeWithParents_ok h (mirrored base outDir file.path) file.output
    rcases hrun :
        (writeWithParents fileSystem (mirrored base outDir file.path) file.output).run.run d with
      ⟨e | _, d₁⟩ <;> rw [hrun] at hok hwritten
    · cases hok
    obtain ⟨hgrown, hread⟩ := hwritten rfl
    dsimp only at hok ⊢
    -- what is printed changes nothing on the disk
    generalize hprinted : ((fileSystem.print (progress.line
        ((if file.changed then "Rewritten: " else "Copied: ") ++
      mirrored base outDir file.path))).run d₁).2 = d₂ at hok ⊢
    have hsame : d₁.SameFiles d₂ := hprinted ▸ ⟨rfl, rfl⟩
    obtain ⟨hgrown, hread⟩ : Grown (· = d.place (mirrored base outDir file.path)) d d₂ ∧
        d₂.read (mirrored base outDir file.path) = .ok file.output := by
      refine ⟨hgrown.of_sameFiles (.refl d) hsame, ?_⟩
      obtain ⟨output, errors, rfl⟩ := hsame.eq_printed
      exact hread
    obtain ⟨hfile, hroot'⟩ := hgrown.isFile h hroot
    have hbase' : ((mirrorBase fileSystem root).run d₂).1 = base := by
      rw [run_mirrorBase] at hbase ⊢
      rw [hfile]
      exact hbase
    have hplaces' : (rest.map fun f => d₂.place (mirrored base outDir f.path)).Nodup := by
      simpa only [hgrown.place] using hrest
    obtain ⟨houtput, hgrown'⟩ := ih hgrown.linkless hroot' hbase' hplaces' hok
    refine ⟨fun f hf => ?_, (hgrown.mono ?_).trans (hgrown'.mono ?_)⟩
    · rcases List.mem_cons.1 hf with rfl | hf
      · obtain ⟨hr, hat⟩ := (read_eq_ok_iff hgrown.linkless).1 hread
        refine (read_eq_ok_iff hgrown'.linkless).2 ⟨hgrown'.reaches hr, ?_⟩
        have hnot : ¬ ∃ g ∈ rest, d₂.place (mirrored base outDir f.path) =
            d₂.place (mirrored base outDir g.path) := by
          rintro ⟨g, hg, heq⟩
          rw [hgrown.place, hgrown.place] at heq
          exact hplace (List.mem_map.2 ⟨g, hg, heq.symm⟩)
        rw [hgrown'.place]
        rcases hgrown'.elsewhere _ hnot with hsame | ⟨hnone, -⟩
        · rw [hsame, hat]
        · cases hat.symm.trans hnone
      · exact houtput f hf
    · exact fun location heq => ⟨file, List.mem_cons_self, heq⟩
    · rintro location ⟨f, hf, hlocation⟩
      exact ⟨f, List.mem_cons_of_mem _ hf, hlocation.trans (hgrown.place _)⟩

/-- A command that writes to a mirrored tree on a disk without links and succeeds has written the transform
of each source file in a place of its own, and nothing else. -/
theorem transform_mirror (hlinks : d.root.Linkless) (h : d.Listed) (request : Request)
    (hcheck : request.check = false) (hout : request.outDir = some outDir)
    (hplan : d.answer (plan fileSystem parse request) = .ok (files, 0))
    (hok : ((transform fileSystem parse request).run.run d).1 = .ok ()) :
    d.Mirrored ((mirrorBase fileSystem request.path).run d).1 outDir files
      ((transform fileSystem parse request).run.run d).2 := by
  generalize hbase : ((mirrorBase fileSystem request.path).run d).1 = base
  obtain ⟨options, paths, -, hpaths, hplanned⟩ := (answer_plan_iff d request files).1 hplan
  obtain ⟨rfl, -⟩ := read_of_planned hplanned
  have hroot : d.isFile request.path = true ∨ d.isDirectory request.path = true := by
    rcases sources_cases hpaths with ⟨hfile, -⟩ | ⟨-, hdirectory, -⟩
    · exact .inl hfile
    · exact .inr hdirectory
  -- Files at two places have their copies at two places, so that no copy is written over another
  -- one.
  have hplaces : (files.map fun file => d.place (mirrored base outDir file.path)).Nodup := by
    refine (List.Nodup.of_map _ (nodup_sources h hpaths)).map_on fun f hf g hg heq => ?_
    have hpath :=
      place_mirrored_injective h hpaths hbase (List.mem_map_of_mem hf) (List.mem_map_of_mem hg) heq
    exact List.inj_on_of_nodup_map (nodup_sources h hpaths) hf hg hpath
  obtain ⟨d₁, hsame, hrun | ⟨rfl, hrun⟩⟩ := run_writing d request hcheck hplan
  · rw [hout] at hrun
    have hmirror :
        ((writeMirror fileSystem request.path outDir (.first files.length) files).run.run d₁).1 = .ok () →
        d.Mirrored base outDir files
          ((writeMirror fileSystem request.path outDir (.first files.length) files).run.run d₁).2 := by
      obtain ⟨output, errors, rfl⟩ := hsame.eq_printed
      rw [run_mirrorBase] at hbase
      have hbase' : ((mirrorBase fileSystem request.path).run { d with output, errors }).1 = base := by
        rw [run_mirrorBase]
        exact hbase
      have hlinks' : ({ d with output, errors } : Disk).root.Linkless := hlinks
      exact fun hok => (writeMirror_ok hlinks' hroot hbase' hplaces hok).of_sameFiles ⟨rfl, rfl⟩ (.refl _)
    rw [hrun, ExceptT.run_bind, run_bind] at hok ⊢
    generalize (writeMirror fileSystem request.path outDir (.first files.length) files).run.run d₁ = r
      at hok hmirror ⊢
    obtain ⟨answer, d₂⟩ := r
    cases answer with
    | error e => cases hok
    | ok _ => exact (hmirror rfl).of_sameFiles (.refl d) ⟨rfl, rfl⟩
  · rw [hrun]
    obtain ⟨output, errors, rfl⟩ := hsame.eq_printed
    exact ⟨by simp, (Grown.refl hlinks).of_sameFiles (.refl d) ⟨rfl, rfl⟩⟩

end Disk

end FineGrain
