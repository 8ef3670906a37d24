import FineGrain.Proofs.Command.Planning
import FineGrain.Proofs.Files.Path
import Mathlib.Data.List.Nodup
/-!
What is collected below a directory: source files, each once and under the names of the entries that lead
to it.
-/

namespace FineGrain

open Command FineGrain.Path

namespace Disk

variable {α β : Type} {d : Disk} {path : String} {paths : List String}

/-- Directories list their entries, each under a name of its own. -/
structure Listed (d : Disk) : Prop where
  proper : ∀ path, ∀ name ∈ d.entries path, Proper name
  nodup : ∀ path, (d.entries path).Nodup

theorem answer_mapM {f : α → StateM Disk β} (hf : ∀ v, Looks (f v)) (l : List α) (d : Disk) :
    ((l.mapM f).run d).1 = l.map fun v => ((f v).run d).1 := by
  induction l with
  | nil => rfl
  | cons v rest ih =>
    have hafter := ((hf v) d d (.refl d)).2.1
    have hrest := (Agree.mapM hf rest d _ hafter).1
    rw [List.mapM_cons, List.map_cons, ← ih, ← hrest]
    rfl

theorem sourcesAt_cases (d : Disk) (n : Nat) (above : List String) (directory name : String) :
    ((sourcesAt n above directory name).run d).1 = [] ∨
    (((sourcesAt n above directory name).run d).1 = [join directory name] ∧
      isSource (join directory name) = true) ∨
    ((sourcesAt n above directory name).run d).1 =
      ((sourcesBelow fileSystem n (join directory name :: above) (join directory name)).run d).1 := by
  have hback := (looks_leadsBack above (join directory name) d d (.refl d)).2.1
  rw [sourcesAt, run_bind]
  split
  · split
    · exact .inl rfl
    · rw [run_bind]
      split
      · exact .inl rfl
      · exact .inr (.inr ((looks_sourcesBelow n _ _ _ _ hback).1))
  · rw [run_bind]
    split
    · rw [StateT.run_pure]
      by_cases hsource : isSource (join directory name) = true
      · exact .inr (.inl ⟨if_pos hsource, hsource⟩)
      · exact .inl (if_neg hsource)
    · exact .inl rfl

theorem run_sourcesBelow (d : Disk) (n : Nat) (above : List String) (directory : String) :
    ((sourcesBelow fileSystem (n + 1) above directory).run d).1 =
      ((d.entries directory).map fun name => ((sourcesAt n above directory name).run d).1).flatten := by
  rw [← answer_mapM (looks_sourcesAt (looks_sourcesBelow n) above directory)]
  rfl

theorem mem_sourcesBelow (h : d.Listed) (n : Nat) (above : List String) (directory : String) :
    ∀ path ∈ ((sourcesBelow fileSystem n above directory).run d).1, isSource path = true ∧
      ∃ names, names ≠ [] ∧ (∀ name ∈ names, Proper name) ∧ path = below directory names := by
  induction n generalizing above directory with
  | zero => exact fun _ h => absurd h List.not_mem_nil
  | succ n ih =>
    intro path hpath
    rw [run_sourcesBelow] at hpath
    obtain ⟨found, hfound, hpath⟩ := List.mem_flatten.1 hpath
    obtain ⟨name, hname, rfl⟩ := List.mem_map.1 hfound
    rcases sourcesAt_cases d n above directory name with hnone | ⟨hone, hsource⟩ | hdeeper
    · rw [hnone] at hpath
      cases hpath
    · rw [hone] at hpath
      obtain rfl := List.mem_singleton.1 hpath
      exact ⟨hsource, [name], List.cons_ne_nil _ _, by simpa using h.proper directory name hname, rfl⟩
    · rw [hdeeper] at hpath
      obtain ⟨hsource, names, -, hnames, rfl⟩ := ih _ _ path hpath
      refine ⟨hsource, name :: names, List.cons_ne_nil _ _, fun m hm => ?_, rfl⟩
      rcases List.mem_cons.1 hm with rfl | hm
      · exact h.proper directory m hname
      · exact hnames m hm

theorem mem_sourcesAt (h : d.Listed) {n : Nat} {above : List String} {directory name : String}
    (hpath : path ∈ ((sourcesAt n above directory name).run d).1) :
    ∃ names, (∀ name ∈ names, Proper name) ∧ path = below directory (name :: names) := by
  rcases sourcesAt_cases d n above directory name with hnone | ⟨hone, -⟩ | hdeeper
  · rw [hnone] at hpath
    cases hpath
  · rw [hone] at hpath
    exact ⟨[], nofun, List.mem_singleton.1 hpath⟩
  · rw [hdeeper] at hpath
    obtain ⟨-, names, -, hnames, rfl⟩ := mem_sourcesBelow h _ _ _ path hpath
    exact ⟨names, hnames, rfl⟩

theorem nodup_sourcesBelow (h : d.Listed) (n : Nat) (above : List String) {directory : String}
    (hdirectory : directory ≠ "") : ((sourcesBelow fileSystem n above directory).run d).1.Nodup := by
  induction n generalizing above directory with
  | zero => exact List.nodup_nil
  | succ n ih =>
    rw [run_sourcesBelow, List.nodup_flatten]
    refine ⟨fun found hfound => ?_, ?_⟩
    · obtain ⟨name, -, rfl⟩ := List.mem_map.1 hfound
      rcases sourcesAt_cases d n above directory name with hnone | ⟨hone, -⟩ | hdeeper
      · rw [hnone]
        exact List.nodup_nil
      · rw [hone]
        exact List.nodup_singleton _
      · rw [hdeeper]
        exact ih _ (join_ne_empty hdirectory)
    · rw [List.pairwise_map]
      refine (h.nodup directory).imp_of_mem fun {name other} hname hother hne path hpath hpath' => ?_
      obtain ⟨names, hnames, rfl⟩ := mem_sourcesAt h hpath
      obtain ⟨names', hnames', heq⟩ := mem_sourcesAt h hpath'
      have hcons {m : String} {l : List String} (hm : Proper m) (hl : ∀ name ∈ l, Proper name) :
          ∀ name ∈ m :: l, Proper name := by simpa using ⟨hm, hl⟩
      exact hne (List.cons.inj (below_injective hdirectory (hcons (h.proper directory name hname) hnames)
        (hcons (h.proper directory other hother) hnames') heq)).1

theorem sources_cases (hpaths : d.answer (sources fileSystem path) = .ok paths) :
    (d.isFile path = true ∧ paths = if isSource path then [path] else []) ∨
    (d.isFile path = false ∧ d.isDirectory path = true ∧
      paths.Perm ((sourcesBelow fileSystem deepest [path] path).run d).1) := by
  rw [sources] at hpaths
  replace hpaths := (answer_lift_bind _ _ _).symm.trans hpaths
  split at hpaths
  next hfile =>
    cases hpaths
    exact .inl ⟨hfile, rfl⟩
  next hfile =>
    replace hpaths := (answer_lift_bind _ _ _).symm.trans hpaths
    split at hpaths
    next hdirectory =>
      replace hpaths := (answer_lift_bind _ _ _).symm.trans hpaths
      cases hpaths
      exact .inr ⟨Bool.eq_false_iff.2 hfile, hdirectory, List.mergeSort_perm _ _⟩
    · cases hpaths

theorem ne_empty_of_isDirectory (h : d.isDirectory path = true) : path ≠ "" := by
  rintro rfl
  cases h

theorem nodup_sources (h : d.Listed) (hpaths : d.answer (sources fileSystem path) = .ok paths) :
    paths.Nodup := by
  rcases sources_cases hpaths with ⟨-, rfl⟩ | ⟨-, hdirectory, hperm⟩
  · split
    · exact List.nodup_singleton _
    · exact List.nodup_nil
  · exact hperm.nodup_iff.2 (nodup_sourcesBelow h _ _ (ne_empty_of_isDirectory hdirectory))

theorem isSource_of_mem_sources (h : d.Listed) (hpaths : d.answer (sources fileSystem path) = .ok paths)
    {p : String} (hp : p ∈ paths) : isSource p = true := by
  rcases sources_cases hpaths with ⟨-, rfl⟩ | ⟨-, -, hperm⟩
  · split at hp
    next hsource => exact List.mem_singleton.1 hp ▸ hsource
    next => cases hp
  · exact (mem_sourcesBelow h _ _ _ p (hperm.mem_iff.1 hp)).1

theorem sources_below (h : d.Listed) (hpaths : d.answer (sources fileSystem path) = .ok paths) :
    (∀ p ∈ paths, p = path) ∨ d.isFile path = false ∧ d.isDirectory path = true ∧
      ∀ p ∈ paths, ∃ names, names ≠ [] ∧ (∀ name ∈ names, Proper name) ∧ p = below path names := by
  rcases sources_cases hpaths with ⟨-, rfl⟩ | ⟨hfile, hdirectory, hperm⟩
  · refine .inl fun p hp => ?_
    split at hp
    · exact List.mem_singleton.1 hp
    · cases hp
  · exact .inr ⟨hfile, hdirectory, fun p hp => (mem_sourcesBelow h _ _ _ p (hperm.mem_iff.1 hp)).2⟩

end Disk

end FineGrain
