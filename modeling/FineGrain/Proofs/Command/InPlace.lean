import FineGrain.Proofs.Command.Collecting
import FineGrain.Proofs.Command.Writing
import FineGrain.Proofs.Files.Walk
/-!
Running in place on a disk without links. The paths in use lead to places of their own, and the disk goes
on to have what it began with at all others; so a run either rewrites exactly the changed files, or
leaves everything as it was.
-/

namespace FineGrain

open Command FineGrain.Tree

namespace Disk

variable {d₀ d d' : Disk} {used : String → Prop} {t : String → Option Look} {path : String}

/-- No two of the paths in use lead to one place. -/
def Apart (d : Disk) (used : String → Prop) : Prop :=
  ∀ p q, used p → used q → d.place p = d.place q → p = q

/-- What is at the paths in use, on a disk that has what it began with elsewhere. Where a path does not
lead there is nothing to be written or moved. -/
structure Holds (d₀ : Disk) (used : String → Prop) (d : Disk) (t : String → Option Look) : Prop where
  working : d.working = d₀.working
  linkless : d.root.Linkless
  directories : ∀ location, d.root.at? location = some .directory ↔ d₀.root.at? location = some .directory
  inside : ∀ path, used path → d₀.Reaches path → d.root.at? (d₀.place path) = t path
  beyond : ∀ path, used path → ¬ d₀.Reaches path → t path = none
  elsewhere : ∀ location, (∀ path, used path → d₀.Reaches path → location ≠ d₀.place path) →
    d.root.at? location = d₀.root.at? location

namespace Holds

theorem place (h : d₀.Holds used d t) (path : String) : d.place path = d₀.place path := by
  rw [Disk.place, Disk.place, h.working]

theorem at? (h : d₀.Holds used d t) (hpath : used path) (hr : d₀.Reaches path) :
    d.root.at? (d.place path) = t path := by
  rw [h.place, h.inside path hpath hr]

theorem reaches_iff (h : d₀.Holds used d t) : d.Reaches path ↔ d₀.Reaches path := by
  have hpasses : Passes d.root (start d₀.working path) (Path.pieces path) ↔
      Passes d₀.root (start d₀.working path) (Path.pieces path) := passes_congr h.directories
  constructor
  · rintro ⟨hsome, hshort, hp⟩
    rw [h.working] at hp
    exact ⟨hsome, hshort, hpasses.1 hp⟩
  · rintro ⟨hsome, hshort, hp⟩
    refine ⟨hsome, hshort, ?_⟩
    rw [h.working]
    exact hpasses.2 hp

theorem reaches (h : d₀.Holds used d t) (hpath : used path) {look : Look} (hlook : t path = some look) :
    d₀.Reaches path := by
  by_contra hr
  cases hlook.symm.trans (h.beyond path hpath hr)

theorem writable_iff (h : d₀.Holds used d t) : d.Writable path ↔ d₀.Writable path := by
  have hplace : d.root.at? (d.place path) = some .directory ↔
      d₀.root.at? (d₀.place path) = some .directory := by
    rw [h.place, h.directories]
  exact ⟨fun hw => ⟨h.reaches_iff.1 hw.reaches, mt hplace.2 hw.free⟩,
    fun hw => ⟨h.reaches_iff.2 hw.reaches, mt hplace.1 hw.free⟩⟩

theorem update (h : d₀.Holds used d t) (hapart : d₀.Apart used) (hpath : used path) (hr : d₀.Reaches path)
    (hold : t path ≠ some .directory) {new : Option Look}
    (hnew : new = none ∨ ∃ content, new = some (.file content))
    (hd' : d.Becomes (Function.update d.root.at? (d.place path) new) d') :
    d₀.Holds used d' (Function.update t path new) where
  working := hd'.working.trans h.working
  linkless location target := by
    rw [hd'.look, Function.update_apply]
    split
    · rcases hnew with rfl | ⟨content, rfl⟩ <;> simp
    · exact h.linkless location target
  directories location := by
    rw [hd'.look, ← h.directories, Function.update_apply]
    split
    next heq =>
      rw [heq, h.at? hpath hr]
      rcases hnew with rfl | ⟨content, rfl⟩ <;> simp [hold]
    · rfl
  inside other hother hr' := by
    rw [hd'.look, h.place, Function.update_apply, Function.update_apply, h.inside other hother hr']
    by_cases heq : other = path
    · simp [heq]
    · rw [if_neg heq, if_neg fun hplace => heq (hapart _ _ hother hpath hplace)]
  beyond other hother hr' := by
    have hne : other ≠ path := by
      rintro rfl
      exact hr' hr
    rw [Function.update_of_ne hne, h.beyond other hother hr']
  elsewhere location hlocation := by
    rw [hd'.look, h.place, Function.update_of_ne (hlocation path hpath hr),
      h.elsewhere location hlocation]

end Holds

/-! ### Operations -/

theorem run_write (h : d₀.Holds used d t) (hapart : d₀.Apart used) (hpath : used path) (text : String) :
    (∃ d', (fileSystem.write path text).run d = (.ok (), d') ∧ d₀.Writable path ∧
      d₀.Holds used d' (Function.update t path (some (.file (.text text))))) ∨
    ∃ e, (fileSystem.write path text).run d = (.error e, d) ∧ ¬ d₀.Writable path := by
  by_cases hw : d.Writable path
  · have hw₀ := h.writable_iff.1 hw
    obtain ⟨d', hd', hbecomes⟩ := writeContent_ok h.linkless hw (.text text)
    have hold : t path ≠ some .directory := by
      rw [← h.at? hpath hw₀.reaches]
      exact hw.free
    exact .inl ⟨d', run_attempt_ok hd', hw₀,
      h.update hapart hpath hw₀.reaches hold (.inr ⟨_, rfl⟩) hbecomes⟩
  · obtain ⟨e, he⟩ := writeContent_error h.linkless hw (.text text)
    exact .inr ⟨e, run_attempt_error he, mt h.writable_iff.2 hw⟩

theorem run_remove (h : d₀.Holds used d t) (hapart : d₀.Apart used) (hpath : used path)
    {content : Content} (hfile : t path = some (.file content)) :
    ∃ d', (fileSystem.remove path).run d = (.ok (), d') ∧
      d.Becomes (Function.update d.root.at? (d.place path) none) d' ∧
      d₀.Holds used d' (Function.update t path none) := by
  have hr := h.reaches hpath hfile
  obtain ⟨d', hd', hbecomes⟩ := remove_ok h.linkless (h.reaches_iff.2 hr) ((h.at? hpath hr).trans hfile)
  exact ⟨d', run_attempt_ok hd', hbecomes, h.update hapart hpath hr (by simp [hfile]) (.inl rfl) hbecomes⟩

theorem run_move (h : d₀.Holds used d t) (hapart : d₀.Apart used) {source target : String}
    (hsource : used source) (htarget : used target) (hne : source ≠ target) {content : Content}
    (hfile : t source = some (.file content)) :
    (∃ d', (fileSystem.move source target).run d = (.ok (), d') ∧
      d₀.Holds used d' (Function.update (Function.update t target (some (.file content))) source none)) ∨
    ∃ e, (fileSystem.move source target).run d = (.error e, d) ∧ ¬ d₀.Writable target := by
  have hr := h.reaches hsource hfile
  have hat := (h.at? hsource hr).trans hfile
  by_cases hw : d.Writable target
  · have hw₀ := h.writable_iff.1 hw
    obtain ⟨d', hd', hbecomes⟩ := move_ok h.linkless (h.reaches_iff.2 hr) hat hw
    obtain ⟨d₁, -, hremoved, hd₁⟩ := run_remove h hapart hsource hfile
    have hfree : Function.update t source none target ≠ some .directory := by
      rw [Function.update_of_ne hne.symm, ← h.at? htarget hw₀.reaches]
      exact hw.free
    refine .inl ⟨d', run_attempt_ok hd', ?_⟩
    rw [Function.update_comm hne.symm]
    refine hd₁.update hapart htarget hw₀.reaches hfree (.inr ⟨content, rfl⟩)
      ⟨hbecomes.working.trans hremoved.working.symm, ?_⟩
    rw [hbecomes.look, hremoved.look, hd₁.place, h.place, h.place]
  · obtain ⟨e, he⟩ := move_error h.linkless (h.reaches_iff.2 hr) hat hw
    exact .inr ⟨e, run_attempt_error he, mt h.writable_iff.2 hw⟩

theorem run_restoreMode (d : Disk) (path : String) : ((fileSystem.restoreMode path).run d).2 = d := by
  refine snd_run_attempt fun d' h => ?_
  cases hresolve : d.resolve true path with
  | error e =>
    rw [hresolve] at h
    cases h
  | ok found =>
    rw [hresolve] at h
    dsimp only [bind, Except.bind] at h
    split at h
    · cases h
      rfl
    · cases h

theorem plain (hapart : d₀.Apart used) : fileSystem.Plain used True (d₀.Holds used) where
  realPath? _ h := h
  restoreMode path h := (run_restoreMode _ path).symm ▸ h
  print _ h := ⟨h.working, h.linkless, h.directories, h.inside, h.beyond, h.elsewhere⟩
  complain _ h := ⟨h.working, h.linkless, h.directories, h.inside, h.beyond, h.elsewhere⟩
  written text hpath h hok := by
    rcases run_write h hapart hpath text with ⟨d', hrun, -, hd'⟩ | ⟨e, hrun, -⟩
    · exact hrun ▸ hd'
    · cases (congrArg Prod.fst hrun).symm.trans hok
  not_written text hpath h herror := by
    rcases run_write h hapart hpath text with ⟨d', hrun, -, -⟩ | ⟨e, hrun, -⟩
    · cases (congrArg Prod.fst hrun).symm.trans herror
    · refine ⟨_, fun _ => rfl, ?_⟩
      rw [Function.update_eq_self, hrun]
      exact h
  moved hsource htarget hne h hfile hok := by
    rcases run_move h hapart hsource htarget hne hfile with ⟨d', hrun, hd'⟩ | ⟨e, hrun, -⟩
    · exact hrun ▸ hd'
    · cases (congrArg Prod.fst hrun).symm.trans hok
  not_moved hsource htarget hne h hfile herror := by
    rcases run_move h hapart hsource htarget hne hfile with ⟨d', hrun, -⟩ | ⟨e, hrun, -⟩
    · cases (congrArg Prod.fst hrun).symm.trans herror
    · exact hrun ▸ h
  removed hpath h hfile := by
    obtain ⟨d', hrun, -, hd'⟩ := run_remove h hapart hpath hfile
    exact ⟨none, fun _ => rfl, hrun ▸ hd'⟩

theorem keepsModes : fileSystem.KeepsModes used (d₀.Holds used) := by
  intro d t path text hpath h hfile
  have hr := h.reaches hpath hfile
  have hfound := at?_eq_file.1 ((h.at? hpath hr).trans hfile)
  have hrun : (fileSystem.restoreMode path).run d = (.ok (), d) :=
    run_attempt_ok (by simp [resolve_eq_ok h.linkless (h.reaches_iff.2 hr), bind, Except.bind, hfound])
  exact congrArg Prod.fst hrun

/-! ### Runs in place -/

variable {parse : Grammar.Parser} {files written : List SourceFile} {text : String}
  {progress : Progress}

theorem replaceText_ok_iff (h : d₀.Holds used d t) (hapart : d₀.Apart used) (hpath : used path)
    (hdraft : used (draftPath path)) (hne : draftPath path ≠ path) (hw : d₀.Writable path) :
    ((replaceText fileSystem path text).run d).1 = .ok () ↔ d₀.Writable (draftPath path) := by
  have hplace : ((fileSystem.realPath? path).run d).2 = d := rfl
  simp only [replaceText, run_bind, hplace]
  rcases run_write h hapart hdraft text with ⟨d₁, hrun, hdw, h₁⟩ | ⟨e, hrun, hdw⟩
  · rw [hrun]
    dsimp only [run_bind]
    have htext : Function.update t (draftPath path) (some (.file (.text text))) (draftPath path) =
        some (.file (.text text)) := Function.update_self _ _ _
    rcases run_move h₁ hapart hdraft hpath hne htext with ⟨d₂, hrun₂, h₂⟩ | ⟨e, -, hnot⟩
    · rw [hrun₂]
      refine iff_of_true ?_ hdw
      dsimp only
      split
      · exact keepsModes hpath h₂ (by rw [Function.update_of_ne hne.symm, Function.update_self])
      · rfl
    · exact absurd hw hnot
  · rw [hrun]
    refine iff_of_false (fun hok => ?_) hdw
    cases hok

def InUse (files : List SourceFile) (path : String) : Prop :=
  ∃ file ∈ files, path = file.path ∨ path = draftPath file.path

/-- What a run in place needs: no links, and files that can be read; neither they nor their drafts share
a place. -/
structure Ready (d : Disk) (files : List SourceFile) : Prop where
  linkless : d.root.Linkless
  original : ∀ file ∈ files, d.read file.path = .ok file.original
  nodup : (files.map (·.path)).Nodup
  apart : d.Apart (InUse files)
  draft : ∀ file ∈ files, ∀ other ∈ files, file.path ≠ draftPath other.path

/-- What a path leads to, if anything. -/
def look? (d : Disk) (path : String) : Option Look := (d.item? path).map look

theorem look?_of_reaches (h : d.root.Linkless) (hr : d.Reaches path) :
    d.look? path = d.root.at? (d.place path) := by
  rw [look?, item?, resolve_eq_ok h hr]
  rfl

theorem look?_of_not_reaches (h : d.root.Linkless) (hr : ¬ d.Reaches path) : d.look? path = none := by
  obtain ⟨e, he⟩ := resolve_eq_error h hr true
  rw [look?, item?, he]
  rfl

theorem read_eq_ok_iff_look? (h : d.root.Linkless) {text : String} :
    d.read path = .ok text ↔ d.look? path = some (.file (.text text)) := by
  rw [read_eq_ok_iff h]
  by_cases hr : d.Reaches path
  · simp [look?_of_reaches h hr, hr]
  · simp [look?_of_not_reaches h hr, hr]

theorem Holds.look? (h : d₀.Holds used d t) (hpath : used path) : d.look? path = t path := by
  by_cases hr : d₀.Reaches path
  · rw [look?_of_reaches h.linkless (h.reaches_iff.2 hr), h.at? hpath hr]
  · rw [look?_of_not_reaches h.linkless (mt h.reaches_iff.1 hr), h.beyond path hpath hr]

namespace Ready

variable (h : d.Ready files)
include h

theorem holds : d.Holds (InUse files) d d.look? where
  working := rfl
  linkless := h.linkless
  directories _ := Iff.rfl
  inside _ _ hr := (look?_of_reaches h.linkless hr).symm
  beyond _ _ hr := look?_of_not_reaches h.linkless hr
  elsewhere _ _ := rfl

theorem kept : Kept (InUse files) d.look?
    (fun path => ∃ file ∈ files, path = draftPath file.path) files where
  original file hfile := (read_eq_ok_iff_look? h.linkless).1 (h.original file hfile)
  path file hfile := ⟨file, hfile, .inl rfl⟩
  draft file hfile := ⟨⟨file, hfile, .inr rfl⟩, file, hfile, rfl⟩
  apart file hfile := fun ⟨other, hother, heq⟩ => h.draft file hfile other hother heq

theorem writable {file : SourceFile} (hfile : file ∈ files) : d.Writable file.path := by
  obtain ⟨hr, hat⟩ := (read_eq_ok_iff h.linkless).1 (h.original file hfile)
  exact ⟨hr, by simp [hat]⟩

theorem replaceText_ok_iff {d' : Disk} {t : String → Option Look} (hd' : d.Holds (InUse files) d' t)
    {file : SourceFile} (hfile : file ∈ files) (text : String) :
    ((replaceText fileSystem file.path text).run d').1 = .ok () ↔ d.Writable (draftPath file.path) :=
  Disk.replaceText_ok_iff hd' h.apart (h.kept.path file hfile)
    (h.kept.draft file hfile).1 (h.kept.ne hfile) (h.writable hfile)

theorem rewrite_writable {rest written : List SourceFile} {progress : Progress} {d' : Disk}
    {t : String → Option Look} (hrest : rest ⊆ files) (hd' : d.Holds (InUse files) d' t)
    (hwritten : ∀ file ∈ written, d.Writable (draftPath file.path)) {failure : Failure}
    (hfailure : ((rewrite fileSystem written progress rest).run d').1 = some failure) :
    ∀ file ∈ failure.written, d.Writable (draftPath file.path) := by
  -- Each file that was written could be written, and rewriting others does not change that.
  induction rest generalizing written progress d' t with
  | nil => cases hfailure
  | cons file rest ih =>
    obtain ⟨hfile, hrest⟩ := List.cons_subset.1 hrest
    rw [run_rewrite_cons] at hfailure
    split at hfailure
    · rcases hrun : (replaceText fileSystem file.path file.output).run d' with ⟨e | _, d₁⟩ <;>
        rw [hrun] at hfailure
      · cases hfailure
        exact hwritten
      · have hd₁ := replaceText_ok (plain h.apart) (h.kept.path file hfile) (h.kept.draft file hfile).1
          (h.kept.ne hfile) hd' (congrArg Prod.fst hrun)
        rw [hrun] at hd₁
        refine ih hrest ((plain h.apart).print _ hd₁) (fun f hf => ?_) hfailure
        rcases List.mem_cons.1 hf with rfl | hf
        · exact (h.replaceText_ok_iff hd' hfile _).1 (congrArg Prod.fst hrun)
        · exact hwritten f hf
    · exact ih hrest ((plain h.apart).print _ hd') hwritten hfailure

theorem rollBack_eq_nil {written : List SourceFile} {d' : Disk} {t : String → Option Look}
    (hsub : written ⊆ files) (hd' : d.Holds (InUse files) d' t)
    (hwritten : ∀ file ∈ written, d.Writable (draftPath file.path)) :
    ((rollBack fileSystem written).run d').1 = [] := by
  induction written generalizing d' t with
  | nil => rfl
  | cons file rest ih =>
    obtain ⟨hfile, hrest⟩ := List.cons_subset.1 hsub
    have hok := (h.replaceText_ok_iff hd' hfile file.original).2 (hwritten file List.mem_cons_self)
    have hd₁ := replaceText_ok (plain h.apart) (h.kept.path file hfile) (h.kept.draft file hfile).1
      (h.kept.ne hfile) hd' hok
    rw [rollBack, run_bind, run_bind, hok]
    exact ih hrest hd₁ fun f hf => hwritten f (List.mem_cons_of_mem _ hf)

end Ready

/-- Exactly the changed files have their new texts, and none of them has a draft. -/
structure Replaced (d : Disk) (files : List SourceFile) (d' : Disk) : Prop where
  output : ∀ file ∈ files, file.changed → d'.read file.path = .ok file.output
  draft : ∀ file ∈ files, file.changed → d'.look? (draftPath file.path) = none
  other : ∀ location, (∀ file ∈ files, file.changed → location ≠ d.place file.path ∧
    location ≠ d.place (draftPath file.path)) → d'.root.at? location = d.root.at? location

/-- Everything is as it was; a draft may be missing. -/
def Unchanged (d : Disk) (files : List SourceFile) (d' : Disk) : Prop :=
  ∀ location, d'.root.at? location = d.root.at? location ∨
    ∃ file ∈ files, location = d.place (draftPath file.path) ∧ d'.root.at? location = none

theorem Ready.at?_cases (h : d.Ready files) (hd' : d.Holds (InUse files) d' t) (location : List String) :
    (∃ path, location = d.place path ∧ d'.root.at? location = t path ∧
      d.root.at? location = d.look? path) ∨ d'.root.at? location = d.root.at? location := by
  by_cases hused : ∃ path, InUse files path ∧ d.Reaches path ∧ location = d.place path
  · obtain ⟨path, hpath, hr, rfl⟩ := hused
    exact .inl ⟨path, rfl, hd'.inside path hpath hr, (look?_of_reaches h.linkless hr).symm⟩
  · exact .inr (hd'.elsewhere location fun path hpath hr heq => hused ⟨path, hpath, hr, heq⟩)

theorem Ready.replaced (h : d.Ready files) (hd' : d.Holds (InUse files) d' t)
    (ht : Rewritten d.look? files t) : d.Replaced files d' where
  output file hfile hchanged := (read_eq_ok_iff_look? hd'.linkless).2
    ((hd'.look? (h.kept.path file hfile)).trans (ht.output file hfile hchanged))
  draft file hfile hchanged :=
    (hd'.look? (h.kept.draft file hfile).1).trans (ht.draft file hfile hchanged)
  other location hlocation := by
    rcases h.at?_cases hd' location with ⟨path, rfl, hafter, hbefore⟩ | hsame
    · rw [hafter, hbefore]
      refine ht.other path fun file hfile hchanged => ?_
      obtain ⟨hpath, hdraft⟩ := hlocation file hfile hchanged
      exact ⟨fun heq => hpath (by rw [heq]), fun heq => hdraft (by rw [heq])⟩
    · exact hsame

theorem Ready.unchanged (h : d.Ready files) (hd' : d.Holds (InUse files) d' t)
    (ht : ∀ path, t path = d.look? path ∨
      (∃ file ∈ files, path = draftPath file.path) ∧ (True → t path = none)) :
    d.Unchanged files d' := by
  intro location
  rcases h.at?_cases hd' location with ⟨path, rfl, hafter, hbefore⟩ | hsame
  · rw [hafter, hbefore]
    exact (ht path).imp_right fun ⟨⟨f, hf, heq⟩, hnone⟩ => ⟨f, hf, by rw [heq], hnone trivial⟩
  · exact .inl hsame

theorem writeInPlace_cases (h : d.Ready files) (progress : Progress) :
    let r := (writeInPlace fileSystem [] progress files).run.run d
    r.1 = .ok () ∧ d.Replaced files r.2 ∨
      (∃ file ∈ files, ∃ e, r.1 = .error (.file .write file.path e)) ∧ d.Unchanged files r.2 := by
  cases hrun : ((rewrite fileSystem [] progress files).run d).1 with
  | none =>
    have hok : ((writeInPlace fileSystem [] progress files).run.run d).1 = .ok () := by
      rw [run_writeInPlace]
      generalize (rewrite fileSystem [] progress files).run d = r at hrun
      obtain ⟨answer, d'⟩ := r
      obtain rfl : answer = none := hrun
      rfl
    obtain ⟨t, hd', ht⟩ := writeInPlace_ok (plain h.apart) h.kept h.nodup h.holds hok
    exact .inl ⟨hok, h.replaced hd' ht⟩
  | some failure =>
    obtain ⟨hfile, hwritten, t₁, hd₁, -⟩ := rewrite_fails (plain h.apart) keepsModes h.kept h.holds
      (fun _ => .inl rfl) hrun
    have hback :=
      h.rollBack_eq_nil hwritten hd₁ (h.rewrite_writable (List.Subset.refl _) h.holds (by simp) hrun)
    obtain ⟨herror, t, hd', ht⟩ := writeInPlace_error (plain h.apart) keepsModes h.kept h.holds hrun hback
    exact .inr ⟨⟨failure.file, hfile, failure.error, herror⟩, h.unchanged hd' ht⟩

/-! ### The command -/

theorem place_draftPath (h : d.root.Linkless) (hread : d.read path = .ok text) :
    ∃ location name, Path.fileName? path = some name ∧ d.place path = location ++ [name] ∧
      d.place (draftPath path) = location ++ [name ++ ".reactant-tmp"] := by
  obtain ⟨hr, hfile⟩ := (read_eq_ok_iff h).1 hread
  obtain ⟨front, name, hpieces, hname, hplace, -⟩ := hr.last (by simp [hfile])
  have hdraft : Path.Proper (name ++ ".reactant-tmp") := by
    refine ⟨?_, by simp, fun heq => ?_, fun heq => ?_⟩
    · rw [String.toList_append, List.mem_append, not_or]
      exact ⟨hname.slash, by decide⟩
    all_goals
      have hlength := congrArg (·.toList.length) heq
      simp at hlength
  have hfileName := Path.fileName?_of_pieces hpieces hname
  refine ⟨_, name, hfileName, hplace, ?_⟩
  rw [draftPath, hfileName]
  exact place_withFileName d hpieces hname hdraft

theorem not_isSource_draft {name : String} (h : Path.fileName? path = some (name ++ ".reactant-tmp")) :
    isSource path = false := by
  have hsplit : (name ++ ".reactant-tmp").toList.splitOn '.' =
      name.toList.splitOn '.' ++ ["reactant-tmp".toList] := by
    have happend : (name ++ ".reactant-tmp").toList =
      name.toList ++ '.' :: "reactant-tmp".toList := by simp
    rw [happend, List.splitOn_append_cons_self]
    congr 1
  have hextension : Path.extensionOf? (name ++ ".reactant-tmp") = none ∨
      Path.extensionOf? (name ++ ".reactant-tmp") = some "reactant-tmp" := by
    rw [Path.extensionOf?, hsplit]
    split
    · exact .inl rfl
    · exact .inl rfl
    · exact .inl rfl
    · refine .inr ?_
      rw [List.getLast?_concat]
      rfl
  rw [isSource, h]
  rcases hextension with hnone | hsome
  · simp [hnone]
  · have hother : "reactant-tmp" ∉ sourceExtensions := by decide
    simp [hsome, hother]

theorem place_injective (h : d.Listed) {paths : List String}
    (hpaths : d.answer (sources fileSystem path) = .ok paths) {p q : String} (hp : p ∈ paths)
    (hq : q ∈ paths) (heq : d.place p = d.place q) : p = q := by
  rcases sources_below h hpaths with hsame | ⟨-, -, hbelow⟩
  · rw [hsame p hp, hsame q hq]
  · obtain ⟨names, -, hnames, rfl⟩ := hbelow p hp
    obtain ⟨names', -, hnames', rfl⟩ := hbelow q hq
    rw [place_below d path hnames, place_below d path hnames'] at heq
    rw [List.append_cancel_left heq]

theorem apart_of_sources (hlinks : d.root.Linkless) (h : d.Listed) {paths : List String}
    (hpaths : d.answer (sources fileSystem path) = .ok paths) (hfiles : ∀ file ∈ files, file.path ∈ paths)
    (hread : ∀ file ∈ files, d.read file.path = .ok file.original) :
    d.Apart (InUse files) ∧ ∀ file ∈ files, ∀ other ∈ files, file.path ≠ draftPath other.path := by
  have hdraft {f g : SourceFile} (hf : f ∈ files) (hg : g ∈ files) :
      d.place f.path ≠ d.place (draftPath g.path) := by
    intro heq
    obtain ⟨location, name, hname, hplace, -⟩ := place_draftPath hlinks (hread f hf)
    obtain ⟨location', name', -, -, hplace'⟩ := place_draftPath hlinks (hread g hg)
    rw [hplace, hplace'] at heq
    rw [(List.append_inj' heq rfl).2 |> List.singleton_inj.1] at hname
    exact Bool.false_ne_true
      ((not_isSource_draft hname).symm.trans (isSource_of_mem_sources h hpaths (hfiles f hf)))
  have hdrafts {f g : SourceFile} (hf : f ∈ files) (hg : g ∈ files)
      (heq : d.place (draftPath f.path) = d.place (draftPath g.path)) : f.path = g.path := by
    obtain ⟨location, name, -, hplace, hdraft⟩ := place_draftPath hlinks (hread f hf)
    obtain ⟨location', name', -, hplace', hdraft'⟩ := place_draftPath hlinks (hread g hg)
    rw [hdraft, hdraft'] at heq
    obtain ⟨hlocation, hname⟩ := List.append_inj' heq rfl
    refine place_injective h hpaths (hfiles f hf) (hfiles g hg) ?_
    rw [hplace, hplace', hlocation]
    simpa [← String.toList_inj] using hname
  refine ⟨?_, fun f hf g hg heq => hdraft hf hg (by rw [heq])⟩
  rintro p q ⟨f, hf, rfl | rfl⟩ ⟨g, hg, rfl | rfl⟩ heq
  · exact place_injective h hpaths (hfiles f hf) (hfiles g hg) heq
  · exact absurd heq (hdraft hf hg)
  · exact absurd heq.symm (hdraft hg hf)
  · rw [hdrafts hf hg heq]

theorem ready_of_plan (hlinks : d.root.Linkless) (h : d.Listed) {request : Request}
    (hplan : d.answer (plan fileSystem parse request) = .ok (files, 0)) : d.Ready files := by
  obtain ⟨options, paths, -, hpaths, hplanned⟩ := (answer_plan_iff d request files).1 hplan
  obtain ⟨rfl, hread⟩ := read_of_planned hplanned
  obtain ⟨hapart, hdraft⟩ := apart_of_sources hlinks h hpaths (fun f hf => List.mem_map_of_mem hf) hread
  exact ⟨hlinks, hread, nodup_sources h hpaths, hapart, hdraft⟩

variable {d₁ d₂ d₃ : Disk}

theorem Ready.of_sameFiles (h : d.Ready files) (hsame : d.SameFiles d₁) : d₁.Ready files := by
  obtain ⟨output, errors, rfl⟩ := hsame.eq_printed
  exact ⟨h.linkless, h.original, h.nodup, h.apart, h.draft⟩

theorem Replaced.of_sameFiles (h : d₁.Replaced files d₂) (hbefore : d.SameFiles d₁)
    (hafter : d₂.SameFiles d₃) : d.Replaced files d₃ := by
  obtain ⟨output, errors, rfl⟩ := hbefore.eq_printed
  obtain ⟨output', errors', rfl⟩ := hafter.eq_printed
  exact ⟨h.output, h.draft, h.other⟩

theorem Unchanged.of_sameFiles (h : d₁.Unchanged files d₂) (hbefore : d.SameFiles d₁) :
    d.Unchanged files d₂ := by
  obtain ⟨output, errors, rfl⟩ := hbefore.eq_printed
  exact h

/-- A command in place on a disk without links, all of whose files can be transformed, gives exactly the
changed ones their transforms; or it fails over one of them, and everything is as it was. -/
theorem transform_inPlace (hlinks : d.root.Linkless) (h : d.Listed) (request : Request)
    (hcheck : request.check = false) (hout : request.outDir = none)
    (hplan : d.answer (plan fileSystem parse request) = .ok (files, 0)) :
    let r := (transform fileSystem parse request).run.run d
    r.1 = .ok () ∧ d.Replaced files r.2 ∨
      (∃ file ∈ files, ∃ e, r.1 = .error (.file .write file.path e)) ∧ d.Unchanged files r.2 := by
  obtain ⟨d₁, hsame, hrun | ⟨rfl, hrun⟩⟩ := run_writing d request hcheck hplan
  · have hcases :=
      writeInPlace_cases ((ready_of_plan hlinks h hplan).of_sameFiles hsame) (.first files.length)
    rw [hout] at hrun
    rw [hrun, ExceptT.run_bind, run_bind]
    generalize (writeInPlace fileSystem [] (.first files.length) files).run.run d₁ = r at hcases ⊢
    obtain ⟨answer, d₂⟩ := r
    rcases hcases with ⟨hok, hreplaced⟩ | ⟨⟨file, hfile, e, herror⟩, hunchanged⟩
    · obtain rfl : answer = .ok () := hok
      exact .inl ⟨rfl, hreplaced.of_sameFiles hsame ⟨rfl, rfl⟩⟩
    · obtain rfl : answer = .error (.file .write file.path e) := herror
      exact .inr ⟨⟨file, hfile, e, rfl⟩, hunchanged.of_sameFiles hsame⟩
  · rw [hrun]
    exact .inl ⟨rfl, by simp, by simp, fun location _ => by rw [hsame.root]⟩

end Disk

end FineGrain
