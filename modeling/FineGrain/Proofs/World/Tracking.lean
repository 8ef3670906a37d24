import FineGrain.Proofs.Reactive.Edges
import FineGrain.Proofs.World.Run
/-!
Tracking a dependency list subscribes to the states that the list reaches: those it names, and those
that what it names was declared with in turn.
-/

namespace FineGrain

open Act

namespace World

/-- No signal is being written, so every read succeeds. -/
def Calm (w : World) : Prop := ∀ s x, w.signals.get? s = some x → x.writing = false

/-- A dependency list reaches a state. -/
inductive Reaches (w : World) : List Dependency → Nat → Prop
  | state {ds s} : .state s ∈ ds → Reaches w ds s
  | memo {ds m s} : .memo m ∈ ds → Reaches w (w.declared (.memo m)) s → Reaches w ds s

/-- The states that tracking a list subscribes to, in order. -/
def visited (w : World) : Nat → List DependencyKey → List Dependency → List Nat
  | 0, _, _ => []
  | _ + 1, _, [] => []
  | n + 1, seen, d :: rest =>
      match w.keyOf d with
      | none => w.visited n seen rest
      | some key =>
          if seen.contains key then w.visited n seen rest
          else
            match d with
            | .state s => s :: w.visited n (key :: seen) rest
            | d => w.visited n (key :: seen) (w.declared d ++ rest)

/-- The states that a dependency list subscribes to, in order. -/
def sources (w : World) (ds : List Dependency) : List Nat :=
  w.visited (ds.length + w.declaredCount + 1) [] ds

variable {w : World}

theorem Calm.not_writing (h : w.Calm) (s : Nat) :
    ((w.signals.get? s).getD default).writing = false := by
  cases hs : w.signals.get? s with
  | none => rfl
  | some x => exact h s x hs

theorem run_borrowing {s : Nat} (h : ((w.signals.get? s).getD default).writing = false) :
    w.run (borrowing s fun _ => (return : Act PUnit)) = (.ok ⟨⟩, w) := by
  have hid : (fun x : Signal => { x with readers := x.readers - 1 }) ∘
      (fun x : Signal => { x with readers := x.readers + 1 }) = id := by
    funext x
    simp
  simp [borrowing, run_bind, run_read _ h, Store.modify_modify, hid,
    Store.modify_id]

theorem keyOf_probe (hp : w.probes = .empty) (p : Nat) : w.keyOf (.probe p) = none := by
  simp [keyOf, hp, Store.get?, Store.empty, Store.lookup]

theorem visited_congr {w' : World} (hp : w'.probes = w.probes) (hd : w'.declared = w.declared)
    (n : Nat) (seen : List DependencyKey) (ds : List Dependency) :
    w'.visited n seen ds = w.visited n seen ds := by
  have hk (d : Dependency) : w'.keyOf d = w.keyOf d := by
    cases d <;> simp [keyOf, hp]
  induction n generalizing seen ds with
  | zero => rfl
  | succ n ih =>
    cases ds with
    | nil => rfl
    | cons d rest => simp only [visited, hk, hd, ih]

theorem sources_congr {u : World} (hp : u.probes = w.probes) (hm : u.memos = w.memos)
    (ds : List Dependency) : u.sources ds = w.sources ds := by
  have hd : u.declared = w.declared := by
    funext d
    cases d <;> simp [declared, hp, hm]
  rw [sources, sources, visited_congr hp hd, declaredCount, declaredCount, hp, hm]

theorem run_trackOne {s : Nat} (h : ((w.signals.get? s).getD default).writing = false) :
    w.run (trackOne (.state s)) = (.ok ⟨⟩, { w with graph := w.graph.track s }) := by
  have htracked := run_borrowing (w := { w with graph := w.graph.track s }) h
  simp [trackOne, run_bind, htracked]

theorem trackOne_aside (w : World) (d : Dependency) : ∃ graph signals log,
    (w.run (trackOne d)).2 = { w with graph := graph, signals := signals, log := log } := by
  cases d with
  | plain v | memo m => exact ⟨_, _, _, rfl⟩
  | state s =>
    cases h : ((w.signals.get? s).getD default).writing <;>
      simp [trackOne, borrowing, Act.read, run_bind, h]
  | probe p =>
    cases h : w.probes.get? p with
    | none => exact ⟨w.graph, w.signals, w.log, by simp [trackOne, run_bind, h]⟩
    | some x => simp [trackOne, run_bind, h, Act.log]

theorem run_trackSteps (hw : w.Calm) (hp : w.probes = .empty) (n : Nat)
    (seen : List DependencyKey) (ds : List Dependency) (g : Graph) :
    { w with graph := g }.run (trackSteps n seen ds) =
      (.ok ⟨⟩, { w with graph := (w.visited n seen ds).foldl Graph.track g }) := by
  induction n generalizing seen ds g with
  | zero => rfl
  | succ n ih =>
    cases ds with
    | nil => rfl
    | cons d rest =>
      have hcalm : Calm { w with graph := g } := hw
      simp only [trackSteps, run_bind, run_get, visited]
      cases d with
      | plain v => exact ih seen rest g
      | state s =>
        simp only [keyOf]
        by_cases hm : seen.contains (.signal s) = true
        · simp only [hm, if_true]
          exact ih seen rest g
        · simp only [hm, Bool.false_eq_true, if_false, run_bind, run_trackOne (hcalm.not_writing s), declared,
            List.nil_append]
          exact ih (.signal s :: seen) rest (g.track s)
      | memo m =>
        simp only [keyOf]
        by_cases hm : seen.contains (.memo m) = true
        · simp only [hm, if_true]
          exact ih seen rest g
        · simp only [hm, Bool.false_eq_true, if_false, run_bind, trackOne, run_pure]
          exact ih (.memo m :: seen) (w.declared (.memo m) ++ rest) g
      | probe p =>
        have hk : ({ w with graph := g } : World).keyOf (.probe p) = none := keyOf_probe hp p
        simp only [keyOf_probe hp, hk]
        exact ih seen rest g

theorem run_trackAll (hw : w.Calm) (hp : w.probes = .empty) (ds : List Dependency) :
    w.run (trackAll ds) =
      (.ok ⟨⟩, { w with graph := (w.sources ds).foldl Graph.track w.graph }) := by
  simp only [trackAll, run_bind, run_get]
  exact run_trackSteps hw hp _ [] ds w.graph

theorem Reaches.mono {ds es : List Dependency} {s : Nat} (h : w.Reaches ds s)
    (hd : ∀ d ∈ ds, d ∈ es) : w.Reaches es s := by
  cases h with
  | state hs => exact .state (hd _ hs)
  | memo hm hr => exact .memo (hd _ hm) hr

theorem reaches_append {ds es : List Dependency} {s : Nat} :
    w.Reaches (ds ++ es) s ↔ w.Reaches ds s ∨ w.Reaches es s := by
  constructor
  · intro h
    cases h with
    | state hs => exact (List.mem_append.1 hs).imp .state .state
    | memo hm hr => exact (List.mem_append.1 hm).imp (.memo · hr) (.memo · hr)
  · rintro (h | h) <;> exact h.mono (by simp +contextual)

theorem reaches_of_mem_visited {n : Nat} {seen : List DependencyKey} {ds : List Dependency}
    {s : Nat} (hp : w.probes = .empty) (h : s ∈ w.visited n seen ds) : w.Reaches ds s := by
  induction n generalizing seen ds with
  | zero => simp [visited] at h
  | succ n ih =>
    cases ds with
    | nil => simp [visited] at h
    | cons d rest =>
      have htail {seen} (h : s ∈ w.visited n seen rest) : w.Reaches (d :: rest) s :=
        (ih h).mono (by simp +contextual)
      simp only [visited] at h
      cases d with
      | plain v => exact htail h
      | state t =>
        simp only [keyOf] at h
        split at h
        · exact htail h
        · rcases List.mem_cons.1 h with rfl | h
          · exact .state (by simp)
          · exact htail h
      | memo m =>
        simp only [keyOf] at h
        split at h
        · exact htail h
        · rcases reaches_append.1 (ih h) with h | h
          · exact .memo (by simp) h
          · exact h.mono (by simp +contextual)
      | probe p =>
        simp only [keyOf_probe hp] at h
        exact htail h

/-- A list reaches a state without passing through a wrapper already seen. -/
inductive Unseen (w : World) (seen : List DependencyKey) : List Dependency → Nat → Prop
  | state {ds s} : .state s ∈ ds → .signal s ∉ seen → Unseen w seen ds s
  | memo {ds m s} : .memo m ∈ ds → .memo m ∉ seen →
      Unseen w seen (w.declared (.memo m)) s → Unseen w seen ds s

theorem Unseen.of_reaches {ds : List Dependency} {s : Nat} (h : w.Reaches ds s) :
    w.Unseen [] ds s := by
  induction h with
  | state hs => exact .state hs (by simp)
  | memo hm _ ih => exact .memo hm (by simp) ih

theorem Unseen.avoid_state {seen : List DependencyKey} {ds : List Dependency} {s : Nat}
    (h : w.Unseen seen ds s) (t : Nat) : s = t ∨ w.Unseen (.signal t :: seen) ds s := by
  induction h with
  | @state ds s hs hn =>
    by_cases ht : s = t
    · exact .inl ht
    · exact .inr (.state hs (by simp [ht, hn]))
  | memo hm hn _ ih => exact ih.imp_right (.memo hm (by simp [hn]))

theorem Unseen.avoid_memo {seen : List DependencyKey} {ds : List Dependency} {s : Nat}
    (h : w.Unseen seen ds s) (m : Nat) :
    w.Unseen (.memo m :: seen) (w.declared (.memo m)) s ∨ w.Unseen (.memo m :: seen) ds s := by
  induction h with
  | state hs hn => exact .inr (.state hs (by simp [hn]))
  | @memo ds k s hk hn _ ih =>
    by_cases h : k = m
    · subst h
      exact ih.elim .inl .inl
    · exact ih.imp_right (.memo hk (by simp [h, hn]))

theorem Unseen.append_left {seen : List DependencyKey} {ds es : List Dependency} {s : Nat}
    (h : w.Unseen seen ds s) : w.Unseen seen (ds ++ es) s := by
  cases h with
  | state hs hn => exact .state (by simp [hs]) hn
  | memo hm hn hr => exact .memo (by simp [hm]) hn hr

theorem Unseen.append_right {seen : List DependencyKey} {ds es : List Dependency} {s : Nat}
    (h : w.Unseen seen es s) : w.Unseen seen (ds ++ es) s := by
  cases h with
  | state hs hn => exact .state (by simp [hs]) hn
  | memo hm hn hr => exact .memo (by simp [hm]) hn hr

theorem Unseen.of_cons {seen : List DependencyKey} {d : Dependency} {rest : List Dependency}
    {s : Nat} (h : w.Unseen seen (d :: rest) s) :
    w.Unseen seen rest s ∨ (d = .state s ∧ .signal s ∉ seen) ∨
      ∃ m, d = .memo m ∧ .memo m ∉ seen ∧ w.Unseen seen (w.declared (.memo m)) s := by
  cases h with
  | state hs hn =>
    rcases List.mem_cons.1 hs with h | hs
    · exact .inr (.inl ⟨h.symm, hn⟩)
    · exact .inl (.state hs hn)
  | @memo _ m _ hm hn hr =>
    rcases List.mem_cons.1 hm with h | hm
    · exact .inr (.inr ⟨m, h.symm, hn, hr⟩)
    · exact .inl (.memo hm hn hr)

/-- How many entries the memos not yet seen were declared with. -/
def unseenCount (seen : List DependencyKey) : List (Nat × Memo) → Nat
  | [] => 0
  | (m, x) :: rest =>
      (if seen.contains (.memo m) then 0 else x.dependencies.length) + unseenCount seen rest

theorem unseenCount_nil (entries : List (Nat × Memo)) :
    unseenCount [] entries = (entries.flatMap fun e => e.2.dependencies).length := by
  induction entries with
  | nil => rfl
  | cons e rest ih => simp [unseenCount, ih]

theorem unseenCount_cons_le (key : DependencyKey) (seen : List DependencyKey)
    (entries : List (Nat × Memo)) :
    unseenCount (key :: seen) entries ≤ unseenCount seen entries := by
  induction entries with
  | nil => exact Nat.le_refl _
  | cons e rest ih =>
    obtain ⟨m, x⟩ := e
    by_cases h : DependencyKey.memo m ∈ seen <;>
      by_cases hk : DependencyKey.memo m = key <;> simp [unseenCount, h, hk] <;> omega

theorem unseenCount_expand {seen : List DependencyKey} {m : Nat} (hm : .memo m ∉ seen)
    (entries : List (Nat × Memo)) :
    (((Store.lookup m entries).map (·.dependencies)).getD []).length +
      unseenCount (.memo m :: seen) entries ≤ unseenCount seen entries := by
  induction entries with
  | nil => simp [Store.lookup, unseenCount]
  | cons e rest ih =>
    obtain ⟨k, x⟩ := e
    by_cases h : k = m
    · subst h
      have := unseenCount_cons_le (.memo k) seen rest
      simp [Store.lookup, unseenCount, hm]
      omega
    · simp only [Store.lookup, h, if_false, unseenCount, List.contains_cons]
      have hk : (DependencyKey.memo k == DependencyKey.memo m) = false := by simp [h]
      rw [hk, Bool.false_or]
      split <;> omega

theorem length_expand {n m : Nat} {seen : List DependencyKey} {rest : List Dependency}
    (hm : .memo m ∉ seen) (hn : rest.length + 1 + unseenCount seen w.memos.entries ≤ n + 1) :
    (w.declared (.memo m) ++ rest).length + unseenCount (.memo m :: seen) w.memos.entries ≤ n := by
  have hpay := unseenCount_expand hm w.memos.entries
  simp only [List.length_append, declared, Store.get?]
  omega

theorem mem_visited (hp : w.probes = .empty) {n : Nat} {seen : List DependencyKey}
    {ds : List Dependency} {s : Nat} (h : w.Unseen seen ds s)
    (hn : ds.length + unseenCount seen w.memos.entries ≤ n) : s ∈ w.visited n seen ds := by
  induction n generalizing seen ds with
  | zero =>
    have : ds = [] := List.length_eq_zero_iff.1 (by omega)
    subst this
    cases h <;> simp_all
  | succ n ih =>
    cases ds with
    | nil => cases h <;> simp_all
    | cons d rest =>
      simp only [List.length_cons] at hn
      simp only [visited]
      -- The path to `s` goes on behind the first entry, ends with it, or leads through its declared list.
      rcases h.of_cons with htail | ⟨rfl, hs⟩ | ⟨m, rfl, hm, hr⟩
      · split
        · exact ih htail (by omega)
        · rename_i key hkey
          split
          · exact ih htail (by omega)
          · rename_i hseen
            have hle := unseenCount_cons_le key seen w.memos.entries
            cases d with
            | plain v => simp [keyOf] at hkey
            | state t =>
              simp only [keyOf, Option.some.injEq] at hkey
              subst hkey
              rcases htail.avoid_state t with rfl | h
              · simp
              · exact List.mem_cons_of_mem _ (ih h (by omega))
            | memo m =>
              simp only [keyOf, Option.some.injEq] at hkey
              subst hkey
              have hfit := length_expand (by simpa using hseen) hn
              rcases htail.avoid_memo m with h | h
              · exact ih h.append_left hfit
              · exact ih h.append_right hfit
            | probe p => simp [keyOf_probe hp] at hkey
      · simp only [keyOf]
        rw [if_neg (by simpa using hs)]
        simp
      · simp only [keyOf]
        rw [if_neg (by simpa using hm)]
        rcases hr.avoid_memo m with h | h <;> exact ih h.append_left (length_expand hm hn)

theorem mem_sources (hp : w.probes = .empty) {ds : List Dependency} {s : Nat} :
    s ∈ w.sources ds ↔ w.Reaches ds s := by
  refine ⟨reaches_of_mem_visited hp, fun h => mem_visited hp (.of_reaches h) ?_⟩
  rw [unseenCount_nil, declaredCount]
  omega

end World

end FineGrain
