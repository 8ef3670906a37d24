import FineGrain.Proofs.Command.Planning
import FineGrain.Proofs.Files.Tree
import Mathlib.Logic.Function.Basic
/-!
Writing in place, on any file system where the paths in use lead to files of their own and where every
operation may fail. A run in place gives the changed files their new texts, or puts back what it has
written. One thing it cannot take back: a file whose permissions could not be restored has its new text
by then, and is not among those that are rolled back.
-/

namespace FineGrain

variable {σ : Type} {fs : FileSystem (StateM σ)} {used : String → Prop} {clean : Prop}
  {holds : σ → (String → Option Look) → Prop} {s : σ} {t : String → Option Look}

/-- What operations do at the paths in use, no two of which lead to one place. `holds` tells what is at
them in a state; `clean` says that an operation that fails leaves nothing behind. -/
structure FileSystem.Plain (fs : FileSystem (StateM σ)) (used : String → Prop) (clean : Prop)
    (holds : σ → (String → Option Look) → Prop) : Prop where
  realPath? : ∀ {s t} path, holds s t → holds ((fs.realPath? path).run s).2 t
  restoreMode : ∀ {s t} path, holds s t → holds ((fs.restoreMode path).run s).2 t
  print : ∀ {s t} line, holds s t → holds ((fs.print line).run s).2 t
  complain : ∀ {s t} line, holds s t → holds ((fs.complain line).run s).2 t
  written : ∀ {s t path} text, used path → holds s t → ((fs.write path text).run s).1 = .ok () →
    holds ((fs.write path text).run s).2 (Function.update t path (some (.file (.text text))))
  not_written : ∀ {s t path e} text, used path → holds s t → ((fs.write path text).run s).1 = .error e →
    ∃ left, (clean → left = t path) ∧ holds ((fs.write path text).run s).2 (Function.update t path left)
  moved : ∀ {s t source target text}, used source → used target → source ≠ target → holds s t →
    t source = some (.file (.text text)) → ((fs.move source target).run s).1 = .ok () →
    holds ((fs.move source target).run s).2
      (Function.update (Function.update t target (some (.file (.text text)))) source none)
  not_moved : ∀ {s t source target text e}, used source → used target → source ≠ target → holds s t →
    t source = some (.file (.text text)) → ((fs.move source target).run s).1 = .error e →
    holds ((fs.move source target).run s).2 t
  removed : ∀ {s t path text}, used path → holds s t → t path = some (.file (.text text)) →
    ∃ left, (clean → left = none) ∧ holds ((fs.remove path).run s).2 (Function.update t path left)

/-- Permissions can be restored wherever there is a file. -/
def FileSystem.KeepsModes (fs : FileSystem (StateM σ)) (used : String → Prop)
    (holds : σ → (String → Option Look) → Prop) : Prop :=
  ∀ {s t path text}, used path → holds s t → t path = some (.file (.text text)) →
    ((fs.restoreMode path).run s).1 = .ok ()

namespace Command

variable {path text : String} {files written : List SourceFile} {progress : Progress}

/-- What giving a file a new text can come to: it fails and leaves a draft at most, or the file has the
new text, and perhaps its permissions could not be restored. -/
theorem replaceText_cases (h : fs.Plain used clean holds) (hpath : used path)
    (hdraft : used (draftPath path)) (hne : draftPath path ≠ path) (text : String)
    (hs : holds s t) :
    (∃ e left, ((replaceText fs path text).run s).1 = .error e ∧
      (clean → left = none ∨ left = t (draftPath path)) ∧
      holds ((replaceText fs path text).run s).2 (Function.update t (draftPath path) left)) ∨
    ((((replaceText fs path text).run s).1 = .ok () ∨ ∃ e s' t', holds s' t' ∧
        t' path = some (.file (.text text)) ∧ ((fs.restoreMode path).run s').1 = .error e ∧
        ((replaceText fs path text).run s).1 = .error e) ∧
      holds ((replaceText fs path text).run s).2
        (Function.update (Function.update t path (some (.file (.text text))))
          (draftPath path) none)) := by
  simp only [replaceText, run_bind]
  -- Each of the operations may fail; after the move it is too late to have left the file as it was.
  have hs₁ := h.realPath? path hs
  generalize ((fs.realPath? path).run s).1 = known
  generalize ((fs.realPath? path).run s).2 = s₁ at hs₁
  cases hwrite : ((fs.write (draftPath path) text).run s₁).1 with
  | error e =>
    obtain ⟨left, hclean, hleft⟩ := h.not_written text hdraft hs₁ hwrite
    exact .inl ⟨e, left, rfl, fun hc => .inr (hclean hc), hleft⟩
  | ok _ =>
    have hs₂ := h.written text hdraft hs₁ hwrite
    have htext : Function.update t (draftPath path) (some (.file (.text text))) (draftPath path) =
        some (.file (.text text)) :=
      Function.update_self _ _ _
    dsimp only [run_bind]
    generalize ((fs.write (draftPath path) text).run s₁).2 = s₂ at hs₂
    cases hmove : ((fs.move (draftPath path) path).run s₂).1 with
    | error e =>
      have hs₃ := h.not_moved hdraft hpath hne hs₂ htext hmove
      obtain ⟨left, hclean, hleft⟩ := h.removed hdraft hs₃ htext
      rw [Function.update_idem] at hleft
      exact .inl ⟨e, left, rfl, fun hc => .inl (hclean hc), hleft⟩
    | ok _ =>
      have hs₃ := h.moved hdraft hpath hne hs₂ htext hmove
      rw [Function.update_comm hne, Function.update_idem] at hs₃
      generalize ((fs.move (draftPath path) path).run s₂).2 = s₃ at hs₃
      refine .inr ?_
      cases known with
      | none => exact ⟨.inl rfl, hs₃⟩
      | some place =>
        refine ⟨?_, h.restoreMode path hs₃⟩
        cases hmode : ((fs.restoreMode path).run s₃).1 with
        | ok _ => exact .inl hmode
        | error e => exact .inr ⟨e, s₃, _, hs₃, by simp [Function.update_of_ne hne.symm], hmode, hmode⟩

theorem replaceText_ok (h : fs.Plain used clean holds) (hpath : used path)
    (hdraft : used (draftPath path)) (hne : draftPath path ≠ path) (hs : holds s t)
    (hok : ((replaceText fs path text).run s).1 = .ok ()) :
    holds ((replaceText fs path text).run s).2
      (Function.update (Function.update t path (some (.file (.text text)))) (draftPath path) none) := by
  rcases replaceText_cases h hpath hdraft hne text hs with ⟨e, -, he, -, -⟩ | ⟨-, hmoved⟩
  · cases hok.symm.trans he
  · exact hmoved

theorem replaceText_error (h : fs.Plain used clean holds) (hmodes : fs.KeepsModes used holds)
    (hpath : used path) (hdraft : used (draftPath path)) (hne : draftPath path ≠ path)
    (hs : holds s t) {e : FileError}
    (herror : ((replaceText fs path text).run s).1 = .error e) :
    ∃ left, (clean → left = none ∨ left = t (draftPath path)) ∧
      holds ((replaceText fs path text).run s).2 (Function.update t (draftPath path) left) := by
  rcases replaceText_cases h hpath hdraft hne text hs with
    ⟨-, left, -, hleft⟩ | ⟨hok | ⟨e', s', t', hs', ht', hmode, -⟩, -⟩
  · exact ⟨left, hleft⟩
  · cases hok.symm.trans herror
  · cases (hmodes hpath hs' ht').symm.trans hmode

/-! ### Rolling back -/

variable {before : String → Option Look} {drafts : String → Prop}

/-- Files have the texts they had before, but for some that have other texts now. Of the drafts of files
none is left, if failed operations leave nothing behind. -/
def Touched (clean : Prop) (before : String → Option Look) (drafts : String → Prop)
    (files : List SourceFile) (t : String → Option Look) : Prop :=
  ∀ path, t path = before path ∨ (∃ file ∈ files, file.path = path) ∨
    drafts path ∧ (clean → t path = none)

/-- Files whose texts before are known, each with a draft that is none of them. -/
structure Kept (used : String → Prop) (before : String → Option Look) (drafts : String → Prop)
    (files : List SourceFile) : Prop where
  original : ∀ file ∈ files, before file.path = some (.file (.text file.original))
  path : ∀ file ∈ files, used file.path
  draft : ∀ file ∈ files, used (draftPath file.path) ∧ drafts (draftPath file.path)
  apart : ∀ file ∈ files, ¬ drafts file.path

theorem Kept.mono {some : List SourceFile} (h : Kept used before drafts files) (hsome : some ⊆ files) :
    Kept used before drafts some :=
  ⟨fun f hf => h.original f (hsome hf), fun f hf => h.path f (hsome hf), fun f hf => h.draft f (hsome hf),
    fun f hf => h.apart f (hsome hf)⟩

theorem Kept.ne {file : SourceFile} (h : Kept used before drafts files) (hfile : file ∈ files) :
    draftPath file.path ≠ file.path :=
  fun heq => h.apart file hfile (heq ▸ (h.draft file hfile).2)

theorem Touched.not_replaced {file : SourceFile} {left : Option Look}
    (ht : Touched clean before drafts files t) (hdraft : drafts (draftPath file.path))
    (hleft : clean → left = none ∨ left = t (draftPath file.path)) :
    Touched clean before drafts files (Function.update t (draftPath file.path) left) := by
  intro path
  by_cases hd : path = draftPath file.path
  · subst hd
    rw [Function.update_self]
    by_cases hnone : clean → left = none
    · exact .inr (.inr ⟨hdraft, hnone⟩)
    · obtain ⟨hc, hsome⟩ := Classical.not_imp.1 hnone
      rw [(hleft hc).resolve_left hsome]
      exact ht _
  · rw [Function.update_of_ne hd]
    exact ht path

theorem Touched.replaced {file : SourceFile} (ht : Touched clean before drafts files t)
    (hdraft : drafts (draftPath file.path)) : Touched clean before drafts (file :: files)
      (Function.update (Function.update t file.path (some (.file (.text text))))
        (draftPath file.path) none) := by
  refine Touched.not_replaced (fun path => ?_) hdraft fun _ => .inl rfl
  by_cases hp : path = file.path
  · exact .inr (.inl ⟨file, List.mem_cons_self, hp.symm⟩)
  · rw [Function.update_of_ne hp]
    exact (ht path).imp_right (.imp_left fun ⟨f, hf, hpath⟩ => ⟨f, List.mem_cons_of_mem _ hf, hpath⟩)

theorem Touched.restored {file : SourceFile} (ht : Touched clean before drafts (file :: files) t)
    (hdraft : drafts (draftPath file.path))
    (horiginal : before file.path = some (.file (.text file.original))) :
    Touched clean before drafts files
      (Function.update (Function.update t file.path (some (.file (.text file.original))))
        (draftPath file.path) none) := by
  refine Touched.not_replaced (fun path => ?_) hdraft fun _ => .inl rfl
  by_cases hp : path = file.path
  · subst hp
    exact .inl ((Function.update_self _ _ _).trans horiginal.symm)
  · rw [Function.update_of_ne hp]
    refine (ht path).imp_right (.imp_left fun ⟨f, hf, hpath⟩ => ⟨f, ?_, hpath⟩)
    exact (List.mem_cons.1 hf).resolve_left fun heq => hp (by rw [← hpath, heq])

theorem rollBack_restores (h : fs.Plain used clean holds) (hkept : Kept used before drafts files)
    (hs : holds s t) (ht : Touched clean before drafts files t)
    (hnone : ((rollBack fs files).run s).1 = []) :
    ∃ t', holds ((rollBack fs files).run s).2 t' ∧ Touched clean before drafts [] t' := by
  induction files generalizing s t with
  | nil => exact ⟨t, hs, ht⟩
  | cons file rest ih =>
    rw [rollBack, run_bind, run_bind] at hnone ⊢
    have hdraft := hkept.draft file List.mem_cons_self
    cases hfile : ((replaceText fs file.path file.original).run s).1 with
    | error e =>
      rw [hfile] at hnone
      cases hnone
    | ok _ =>
      rw [hfile] at hnone
      exact ih (hkept.mono (List.subset_cons_self _ _))
        (replaceText_ok h (hkept.path file List.mem_cons_self) hdraft.1
          (hkept.ne List.mem_cons_self) hs hfile)
        (ht.restored hdraft.2 (hkept.original file List.mem_cons_self)) hnone

theorem holds_complainOf (h : fs.Plain used clean holds) (failures : List (String × FileError))
    (hs : holds s t) : holds ((complainOf fs failures).run s).2 t := by
  have hall (l : List (String × FileError)) {s : σ} (hs : holds s t) : holds ((l.forM fun failure =>
      fs.complain ("  - " ++ failure.1 ++ ": " ++ failure.2.message)).run s).2 t := by
    induction l generalizing s with
    | nil => exact hs
    | cons failure rest ih => exact ih (h.complain _ hs)
  rw [complainOf]
  split
  · exact hall failures (h.complain _ hs)
  · exact hs

/-! ### Writing in place -/

/-- Over which file a run in place failed, and what was written by then, the last file first. -/
structure Failure where
  written : List SourceFile
  file : SourceFile
  error : FileError

/-- Rewriting in place up to a failure, without the rollback. -/
def rewrite (fs : FileSystem (StateM σ)) :
    List SourceFile → Progress → List SourceFile → StateM σ (Option Failure)
  | _, _, [] => return none
  | written, progress, file :: rest => do
      if file.changed then
        match ← replaceText fs file.path file.output with
        | .ok () =>
            fs.print (progress.line ("Rewritten: " ++ file.path))
            rewrite fs (file :: written) progress.next rest
        | .error e => return some ⟨written, file, e⟩
      else
        fs.print (progress.line ("Unchanged: " ++ file.path))
        rewrite fs written progress.next rest

theorem run_writeInPlace (written : List SourceFile) (progress : Progress) (files : List SourceFile)
    (s : σ) :
    (writeInPlace fs written progress files).run.run s =
      match (rewrite fs written progress files).run s with
      | (none, s₁) => (.ok (), s₁)
      | (some failure, s₁) => (.error (.file .write failure.file.path failure.error),
          ((complainOf fs ((rollBack fs failure.written).run s₁).1).run
            ((rollBack fs failure.written).run s₁).2).2) := by
  induction files generalizing written progress s with
  | nil => rfl
  | cons file rest ih =>
    rw [writeInPlace, rewrite]
    split
    · refine (run_lift_bind _ _ _).trans ?_
      rw [run_bind]
      rcases (replaceText fs file.path file.output).run s with ⟨_ | _, s₁⟩
      · rfl
      · exact ih _ _ _
    · exact ih _ _ _

theorem run_rewrite_cons (file : SourceFile) (rest : List SourceFile) :
    (rewrite fs written progress (file :: rest)).run s =
      if file.changed then
        match (replaceText fs file.path file.output).run s with
        | (.ok (), s₁) => (rewrite fs (file :: written) progress.next rest).run
            ((fs.print (progress.line ("Rewritten: " ++ file.path))).run s₁).2
        | (.error e, s₁) => (some ⟨written, file, e⟩, s₁)
      else (rewrite fs written progress.next rest).run
        ((fs.print (progress.line ("Unchanged: " ++ file.path))).run s).2 := by
  rw [rewrite]
  split
  · rw [run_bind]
    rcases (replaceText fs file.path file.output).run s with ⟨_ | _, s₁⟩ <;> rfl
  · rfl

theorem rewrite_fails (h : fs.Plain used clean holds) (hmodes : fs.KeepsModes used holds)
    (hkept : Kept used before drafts (written ++ files)) (hs : holds s t)
    (ht : Touched clean before drafts written t) {failure : Failure}
    (hfailure : ((rewrite fs written progress files).run s).1 = some failure) :
    failure.file ∈ files ∧ failure.written ⊆ written ++ files ∧
      ∃ t', holds ((rewrite fs written progress files).run s).2 t' ∧
        Touched clean before drafts failure.written t' := by
  -- `written` are the files done with; the one that fails is not among them.
  induction files generalizing written progress s t with
  | nil => cases hfailure
  | cons file rest ih =>
    have hmem : file ∈ written ++ file :: rest := by simp
    have hdraft := hkept.draft file hmem
    rw [run_rewrite_cons] at hfailure ⊢
    split at hfailure
    next hchanged =>
      rw [if_pos hchanged]
      rcases hrun : (replaceText fs file.path file.output).run s with ⟨e | _, s₁⟩ <;>
        rw [hrun] at hfailure
      · obtain ⟨left, hleft, hs₁⟩ :=
          replaceText_error h hmodes (hkept.path file hmem) hdraft.1 (hkept.ne hmem)
          hs (congrArg Prod.fst hrun)
        rw [hrun] at hs₁
        cases hfailure
        exact ⟨List.mem_cons_self, List.subset_append_left _ _, _, hs₁, ht.not_replaced hdraft.2 hleft⟩
      · have hs₁ :=
          replaceText_ok h (hkept.path file hmem) hdraft.1 (hkept.ne hmem) hs (congrArg Prod.fst hrun)
        rw [hrun] at hs₁
        have hsub : file :: written ++ rest ⊆ written ++ file :: rest := List.perm_middle.symm.subset
        obtain ⟨hfile, hwritten, hrest⟩ :=
          ih (hkept.mono hsub) (h.print _ hs₁) (ht.replaced hdraft.2) hfailure
        exact ⟨List.mem_cons_of_mem _ hfile, List.Subset.trans hwritten hsub, hrest⟩
    next hchanged =>
      rw [if_neg hchanged]
      have hsub : written ++ rest ⊆ written ++ file :: rest :=
        ((List.sublist_cons_self file rest).append_left written).subset
      obtain ⟨hfile, hwritten, hrest⟩ := ih (hkept.mono hsub) (h.print _ hs) ht hfailure
      exact ⟨List.mem_cons_of_mem _ hfile, List.Subset.trans hwritten hsub, hrest⟩

/-- A run in place that fails, and rolls back without a failure, leaves every file with the text it had,
the one included over which it failed. Only drafts may be left, and none where failed operations leave
nothing behind. -/
theorem writeInPlace_error (h : fs.Plain used clean holds) (hmodes : fs.KeepsModes used holds)
    (hkept : Kept used t drafts files) (hs : holds s t) {failure : Failure}
    (hfailure : ((rewrite fs [] progress files).run s).1 = some failure)
    (hback : ((rollBack fs failure.written).run ((rewrite fs [] progress files).run s).2).1 = []) :
    ((writeInPlace fs [] progress files).run.run s).1 =
        .error (.file .write failure.file.path failure.error) ∧
      ∃ t', holds ((writeInPlace fs [] progress files).run.run s).2 t' ∧
        ∀ path, t' path = t path ∨ drafts path ∧ (clean → t' path = none) := by
  obtain ⟨-, hwritten, t₁, hs₁, ht₁⟩ := rewrite_fails h hmodes hkept hs (fun _ => .inl rfl) hfailure
  obtain ⟨t₂, hs₂, ht₂⟩ := rollBack_restores h (hkept.mono hwritten) hs₁ ht₁ hback
  rw [run_writeInPlace]
  generalize (rewrite fs [] progress files).run s = r at hfailure hs₂
  obtain ⟨answer, s₁⟩ := r
  obtain rfl : answer = some failure := hfailure
  exact ⟨rfl, t₂, holds_complainOf h _ hs₂, fun path => (ht₂ path).imp_right (·.resolve_left (by simp))⟩

/-- Exactly the changed files have their new texts, and none of them has a draft any more. -/
structure Rewritten (before : String → Option Look) (files : List SourceFile)
    (after : String → Option Look) : Prop where
  output : ∀ file ∈ files, file.changed → after file.path = some (.file (.text file.output))
  draft : ∀ file ∈ files, file.changed → after (draftPath file.path) = none
  other : ∀ path, (∀ file ∈ files, file.changed → path ≠ file.path ∧ path ≠ draftPath file.path) →
    after path = before path

theorem Rewritten.unchanged {after : String → Option Look} {file : SourceFile} {rest : List SourceFile}
    (h : Rewritten before rest after) (hchanged : ¬ file.changed) :
    Rewritten before (file :: rest) after where
  output f hf hc := h.output f ((List.mem_cons.1 hf).resolve_left fun heq => hchanged (heq ▸ hc)) hc
  draft f hf hc := h.draft f ((List.mem_cons.1 hf).resolve_left fun heq => hchanged (heq ▸ hc)) hc
  other path hpath := h.other path fun f hf => hpath f (List.mem_cons_of_mem _ hf)

theorem Rewritten.changed {after : String → Option Look} {file : SourceFile} {rest : List SourceFile}
    (h : Rewritten (Function.update (Function.update before file.path (some (.file (.text file.output))))
      (draftPath file.path) none) rest after)
    (hpath : ∀ f ∈ rest, file.path ≠ f.path)
    (hapart : ∀ f ∈ file :: rest, ∀ g ∈ file :: rest, f.path ≠ draftPath g.path)
    (hchanged : file.changed) :
    Rewritten before (file :: rest) after where
  output f hf hc := by
    rcases List.mem_cons.1 hf with rfl | hf
    · rw [h.other f.path fun g hg _ => ⟨hpath g hg, hapart f hf g (List.mem_cons_of_mem _ hg)⟩,
        Function.update_of_ne (hapart f hf f hf), Function.update_self]
    · exact h.output f hf hc
  draft f hf hc := by
    rcases List.mem_cons.1 hf with rfl | hf'
    · by_cases hsame : ∃ g ∈ rest, g.changed ∧ draftPath g.path = draftPath f.path
      · obtain ⟨g, hg, hgc, hsame⟩ := hsame
        rw [← hsame]
        exact h.draft g hg hgc
      · rw [h.other _ fun g hg hgc => ⟨(hapart g (List.mem_cons_of_mem _ hg) f hf).symm,
          fun heq => hsame ⟨g, hg, hgc, heq.symm⟩⟩, Function.update_self]
    · exact h.draft f hf' hc
  other path hother := by
    obtain ⟨hne, hdraft⟩ := hother file List.mem_cons_self hchanged
    rw [h.other path fun f hf => hother f (List.mem_cons_of_mem _ hf), Function.update_of_ne hdraft,
      Function.update_of_ne hne]

theorem rewrite_succeeds (h : fs.Plain used clean holds) (hkept : Kept used before drafts files)
    (hpaths : (files.map (·.path)).Nodup) (hs : holds s t)
    (hnone : ((rewrite fs written progress files).run s).1 = none) :
    ∃ t', holds ((rewrite fs written progress files).run s).2 t' ∧ Rewritten t files t' := by
  induction files generalizing written progress s t with
  | nil => exact ⟨t, hs, nofun, nofun, fun _ _ => rfl⟩
  | cons file rest ih =>
    obtain ⟨hfile, hrest⟩ := List.nodup_cons.1 hpaths
    have hkept' := hkept.mono (List.subset_cons_self file rest)
    rw [run_rewrite_cons] at hnone ⊢
    split at hnone
    next hchanged =>
      rw [if_pos hchanged]
      rcases hrun : (replaceText fs file.path file.output).run s with ⟨e | _, s₁⟩ <;> rw [hrun] at hnone
      · cases hnone
      have hs₁ :=
        replaceText_ok h (hkept.path file List.mem_cons_self) (hkept.draft file List.mem_cons_self).1
        (hkept.ne List.mem_cons_self) hs (congrArg Prod.fst hrun)
      rw [hrun] at hs₁
      obtain ⟨t', hs', ht'⟩ := ih hkept' hrest (h.print _ hs₁) hnone
      refine ⟨t', hs', ht'.changed (fun f hf heq => hfile (List.mem_map.2 ⟨f, hf, heq.symm⟩)) ?_ hchanged⟩
      exact fun f hf g hg heq => hkept.apart f hf (heq ▸ (hkept.draft g hg).2)
    next hchanged =>
      rw [if_neg hchanged]
      obtain ⟨t', hs', ht'⟩ := ih hkept' hrest (h.print _ hs) hnone
      exact ⟨t', hs', ht'.unchanged hchanged⟩

/-- A run in place that does not fail gives exactly the changed files their new texts, and leaves no draft
of them. -/
theorem writeInPlace_ok (h : fs.Plain used clean holds) (hkept : Kept used t drafts files)
    (hpaths : (files.map (·.path)).Nodup) (hs : holds s t)
    (hok : ((writeInPlace fs [] progress files).run.run s).1 = .ok ()) :
    ∃ t', holds ((writeInPlace fs [] progress files).run.run s).2 t' ∧ Rewritten t files t' := by
  rw [run_writeInPlace] at hok ⊢
  have hdone (hnone : ((rewrite fs [] progress files).run s).1 = none) :=
    rewrite_succeeds h hkept hpaths hs hnone
  generalize (rewrite fs [] progress files).run s = r at hok hdone
  obtain ⟨_ | failure, s₁⟩ := r
  · exact hdone rfl
  · cases hok

end Command

/-! ### A shelf -/

/-- Files that are nothing but texts under names. Each operation takes a mark from the list, and fails if
the mark says so. -/
structure Shelf where
  files : String → Option Look
  faults : List Bool

namespace Shelf

open Command

/-- An operation that fails if it is marked, and changes nothing then. -/
def attempt (change : (String → Option Look) → String → Option Look) :
    StateM Shelf (Except FileError Unit) := do
  let shelf ← get
  match shelf.faults with
  | true :: rest => do
      set { shelf with faults := rest }
      return .error (.other "fault")
  | faults => do
      set (⟨change shelf.files, faults.tail⟩ : Shelf)
      return .ok ()

/-- The file system that a shelf is. `modes` tells whether restoring permissions can fail as well. -/
def fileSystem (modes : Bool) : FileSystem (StateM Shelf) where
  isFile path := do return ((← get).files path).isSome
  isDirectory _ := return false
  isLink _ := return false
  realPath? path := do return ((← get).files path).map fun _ => path
  entries _ := return []
  read path := do
    match (← get).files path with
    | some (.file (.text text)) => return .ok text
    | _ => return .error .notFound
  write path text := attempt (Function.update · path (some (.file (.text text))))
  move source target := attempt fun files =>
    Function.update (Function.update files target (files source)) source none
  remove path := attempt (Function.update · path none)
  restoreMode _ := if modes then attempt id else return .ok ()
  makeDirectory _ := attempt id
  print _ := return ⟨⟩
  complain _ := return ⟨⟩

theorem run_attempt (change : (String → Option Look) → String → Option Look) (shelf : Shelf) :
    ((attempt change).run shelf).1 = .ok () ∧ ((attempt change).run shelf).2.files = change shelf.files ∨
      (∃ e, ((attempt change).run shelf).1 = .error e) ∧
        ((attempt change).run shelf).2.files = shelf.files := by
  obtain ⟨files, faults⟩ := shelf
  rcases faults with _ | ⟨_ | _, rest⟩
  · exact .inl ⟨rfl, rfl⟩
  · exact .inl ⟨rfl, rfl⟩
  · exact .inr ⟨⟨_, rfl⟩, rfl⟩

theorem files_of_ok {change : (String → Option Look) → String → Option Look} {shelf : Shelf}
    (h : ((attempt change).run shelf).1 = .ok ()) :
    ((attempt change).run shelf).2.files = change shelf.files := by
  rcases run_attempt change shelf with ⟨-, hfiles⟩ | ⟨⟨e, he⟩, -⟩
  · exact hfiles
  · cases h.symm.trans he

theorem files_of_error {change : (String → Option Look) → String → Option Look} {shelf : Shelf}
    {e : FileError}
    (h : ((attempt change).run shelf).1 = .error e) :
    ((attempt change).run shelf).2.files = shelf.files := by
  rcases run_attempt change shelf with ⟨hok, -⟩ | ⟨-, hfiles⟩
  · cases hok.symm.trans h
  · exact hfiles

theorem plain (modes : Bool) : (fileSystem modes).Plain (fun _ => True) False (·.files = ·) where
  realPath? _ h := h
  restoreMode _ h := by
    cases modes with
    | false => exact h
    | true => exact ((run_attempt id _).elim (·.2) (·.2)).trans h
  print _ h := h
  complain _ h := h
  written _ _ h hok := by rw [← h]; exact files_of_ok hok
  not_written _ _ h herror :=
    ⟨_, False.elim, (files_of_error herror).trans (h.trans (Function.update_eq_self _ _).symm)⟩
  moved _ _ _ h htext hok := by
    rw [← htext, ← h]
    exact files_of_ok hok
  not_moved _ _ _ h _ herror := (files_of_error herror).trans h
  removed {shelf t path text} _ h _ := by
    rw [← h]
    rcases run_attempt (Function.update · path none) shelf with ⟨-, hfiles⟩ | ⟨-, hfiles⟩
    · exact ⟨none, False.elim, hfiles⟩
    · exact ⟨shelf.files path, False.elim, hfiles.trans (Function.update_eq_self _ _).symm⟩

/-- Where the permissions of the first changed file cannot be restored, the run fails over it and leaves it
with its new text: only files that were done with are rolled back. -/
theorem writeInPlace_unrestored (files : String → Option Look) (more : List Bool) (progress : Progress)
    (file : SourceFile) (rest : List SourceFile) (hchanged : file.changed)
    (hdraft : file.path ≠ draftPath file.path) (hthere : (files file.path).isSome) :
    let r := (writeInPlace (fileSystem true) [] progress (file :: rest)).run.run
      ⟨files, false :: false :: true :: more⟩
    r.1 = .error (.file .write file.path (.other "fault")) ∧
      r.2.files file.path = some (.file (.text file.output)) := by
  obtain ⟨original, horiginal⟩ := Option.isSome_iff_exists.1 hthere
  let drafted := Function.update files (draftPath file.path) (some (.file (.text file.output)))
  let moved := Function.update (Function.update drafted file.path (drafted (draftPath file.path)))
    (draftPath file.path) none
  have hplace : ((fileSystem true).realPath? file.path).run ⟨files, false :: false :: true :: more⟩ =
      ((files file.path).map fun _ => file.path, ⟨files, false :: false :: true :: more⟩) := rfl
  have hrun : (replaceText (fileSystem true) file.path file.output).run
      ⟨files, false :: false :: true :: more⟩ = (.error (.other "fault"), ⟨moved, more⟩) := by
    rw [replaceText, run_bind, hplace, horiginal]
    rfl
  have hmoved : moved file.path = some (.file (.text file.output)) := by
    simp [moved, drafted, Function.update_of_ne hdraft]
  rw [run_writeInPlace, run_rewrite_cons, if_pos hchanged, hrun]
  exact ⟨rfl, hmoved⟩

end Shelf

end FineGrain
