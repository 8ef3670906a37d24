import FineGrain.Proofs.World.Looking
import Mathlib.Data.List.Nodup
/-!
Tracking a dependency list visits what the list reaches: whatever it names and whatever that was declared
with in turn, depth first and each key once. The visit ends although wrappers may be declared with one
another, because every key that is expanded is one more that was seen.
-/

namespace FineGrain

open Act

namespace World

/-- A dependency list reaches an entry: it names it, or an entry that it reaches was declared with it. -/
inductive Reachable (w : World) (ds : List Dependency) : Dependency → Prop
  | listed {d} : d ∈ ds → Reachable w ds d
  | declared {d d'} : Reachable w ds d → d' ∈ w.declared d → Reachable w ds d'

/-- A visit of a list, depth first: the keys seen before, the list, the wrappers that are tracked, in
order, and the keys seen afterwards. An entry without a key is passed over, and so is one whose key was
seen; any other is tracked, and what it was declared with is visited before what follows it. -/
inductive Visit (w : World) :
    List DependencyKey → List Dependency → List Dependency → List DependencyKey → Prop
  | nil {seen} : Visit w seen [] [] seen
  | plain {seen d rest after seen'} (none : w.keyOf d = none) (next : Visit w seen rest after seen') :
      Visit w seen (d :: rest) after seen'
  | again {seen d rest after seen' key} (hkey : w.keyOf d = some key) (known : key ∈ seen)
      (next : Visit w seen rest after seen') : Visit w seen (d :: rest) after seen'
  | first {seen d rest below after seen₁ seen' key} (hkey : w.keyOf d = some key) (new : key ∉ seen)
      (deeper : Visit w (key :: seen) (w.declared d) below seen₁)
      (next : Visit w seen₁ rest after seen') : Visit w seen (d :: rest) (d :: (below ++ after)) seen'

variable {w u : World} {d : Dependency} {key : DependencyKey} {seen seen' : List DependencyKey}
  {ds es calls : List Dependency}

theorem Reachable.mono (h : w.Reachable ds d) (hds : ∀ d ∈ ds, w.Reachable es d) : w.Reachable es d := by
  induction h with
  | listed hd => exact hds _ hd
  | declared _ hd ih => exact .declared ih hd

theorem keyed_of_declared {d' : Dependency} (h : d' ∈ w.declared d) : (w.keyOf d).isSome := by
  cases d with
  | plain v | state s => cases h
  | memo m => rfl
  | probe p =>
    cases hp : w.probes.get? p with
    | none => simp [declared, hp] at h
    | some x => simp [keyOf, hp]

/-! ### Visits -/

theorem Visit.of_append (h : w.Visit seen (ds ++ es) calls seen') : ∃ first seen₁ second,
    w.Visit seen ds first seen₁ ∧ w.Visit seen₁ es second seen' ∧ calls = first ++ second := by
  induction ds generalizing seen calls with
  | nil => exact ⟨[], seen, calls, .nil, h, rfl⟩
  | cons d rest ih =>
    cases h with
    | plain none next =>
      obtain ⟨first, seen₁, second, h₁, h₂, rfl⟩ := ih next
      exact ⟨first, seen₁, second, .plain none h₁, h₂, rfl⟩
    | again hkey known next =>
      obtain ⟨first, seen₁, second, h₁, h₂, rfl⟩ := ih next
      exact ⟨first, seen₁, second, .again hkey known h₁, h₂, rfl⟩
    | first hkey new deeper next =>
      obtain ⟨first, seen₁, second, h₁, h₂, rfl⟩ := ih next
      exact ⟨_, seen₁, second, .first hkey new deeper h₁, h₂, by simp⟩

theorem Visit.unique {calls' : List Dependency} {seen'' : List DependencyKey}
    (h : w.Visit seen ds calls seen') (h' : w.Visit seen ds calls' seen'') :
    calls' = calls ∧ seen'' = seen' := by
  -- The key of the first entry and whether it was seen decide which rule applies.
  induction h generalizing calls' seen'' with
  | nil =>
    cases h'
    exact ⟨rfl, rfl⟩
  | plain none _ ih =>
    cases h' with
    | plain _ next => exact ih next
    | again hkey => cases none.symm.trans hkey
    | first hkey => cases none.symm.trans hkey
  | again hkey known _ ih =>
    cases h' with
    | plain none => cases none.symm.trans hkey
    | again _ _ next => exact ih next
    | first hkey' new =>
      cases hkey.symm.trans hkey'
      exact absurd known new
  | first hkey new _ _ ih₁ ih₂ =>
    cases h' with
    | plain none => cases none.symm.trans hkey
    | again hkey' known =>
      cases hkey.symm.trans hkey'
      exact absurd known new
    | first hkey' _ deeper next =>
      cases hkey.symm.trans hkey'
      obtain ⟨rfl, rfl⟩ := ih₁ deeper
      obtain ⟨rfl, rfl⟩ := ih₂ next
      exact ⟨rfl, rfl⟩

theorem Visit.seen_eq (h : w.Visit seen ds calls seen') :
    seen' = (calls.filterMap w.keyOf).reverse ++ seen := by
  induction h with
  | nil => rfl
  | plain _ _ ih | again _ _ _ ih => exact ih
  | first hkey _ _ _ ih₁ ih₂ => simp [ih₂, ih₁, hkey]

theorem Visit.mono (h : w.Visit seen ds calls seen') (hkey : key ∈ seen) : key ∈ seen' := by
  rw [h.seen_eq]
  exact List.mem_append_right _ hkey

theorem Visit.nodup (h : w.Visit seen ds calls seen') (hseen : seen.Nodup) : seen'.Nodup := by
  induction h with
  | nil => exact hseen
  | plain _ _ ih | again _ _ _ ih => exact ih hseen
  | first _ new _ _ ih₁ ih₂ => exact ih₂ (ih₁ (List.nodup_cons.2 ⟨new, hseen⟩))

theorem Visit.sound (h : w.Visit seen ds calls seen') :
    ∀ d ∈ calls, (w.keyOf d).isSome ∧ w.Reachable ds d := by
  induction h with
  | nil => exact nofun
  | plain _ _ ih | again _ _ _ ih =>
    exact fun d hd => ⟨(ih d hd).1, (ih d hd).2.mono fun _ => .listed ∘ List.mem_cons_of_mem _⟩
  | @first _ d rest _ _ _ _ _ hkey _ _ _ ih₁ ih₂ =>
    intro d' hd'
    rcases List.mem_cons.1 hd' with rfl | hd'
    · exact ⟨by rw [hkey]; rfl, .listed List.mem_cons_self⟩
    rcases List.mem_append.1 hd' with hd' | hd'
    · exact ⟨(ih₁ d' hd').1, (ih₁ d' hd').2.mono fun _ => .declared (.listed List.mem_cons_self)⟩
    · exact ⟨(ih₂ d' hd').1, (ih₂ d' hd').2.mono fun _ => .listed ∘ List.mem_cons_of_mem _⟩

theorem Visit.closed (h : w.Visit seen ds calls seen') :
    (∀ d ∈ ds, ∀ key, w.keyOf d = some key → key ∈ seen') ∧
      ∀ d ∈ calls, ∀ d' ∈ w.declared d, ∀ key, w.keyOf d' = some key → key ∈ seen' := by
  -- What is seen only grows, so a key that was seen once is in the final list.
  induction h with
  | nil => exact ⟨nofun, nofun⟩
  | plain none _ ih =>
    refine ⟨fun d hd key hkey => ?_, ih.2⟩
    rcases List.mem_cons.1 hd with rfl | hd
    · cases none.symm.trans hkey
    · exact ih.1 d hd key hkey
  | again hkey known next ih =>
    refine ⟨fun d hd key hkey' => ?_, ih.2⟩
    rcases List.mem_cons.1 hd with rfl | hd
    · cases hkey.symm.trans hkey'
      exact next.mono known
    · exact ih.1 d hd key hkey'
  | first hkey new deeper next ih₁ ih₂ =>
    refine ⟨fun d hd key hkey' => ?_, fun d hd d' hd' key hkey' => ?_⟩
    · rcases List.mem_cons.1 hd with rfl | hd
      · cases hkey.symm.trans hkey'
        exact next.mono (deeper.mono List.mem_cons_self)
      · exact ih₂.1 d hd key hkey'
    · rcases List.mem_cons.1 hd with rfl | hd
      · exact next.mono (ih₁.1 d' hd' key hkey')
      rcases List.mem_append.1 hd with hd | hd
      · exact next.mono (ih₁.2 d hd d' hd' key hkey')
      · exact ih₂.2 d hd d' hd' key hkey'

/-- Where entries with the same key were declared with the same keys, every key that is reached is
tracked. -/
theorem Visit.complete (h : w.Visit [] ds calls seen')
    (hsame : ∀ d d', w.Reachable ds d → w.Reachable ds d' → w.keyOf d = w.keyOf d' →
      (w.declared d).map w.keyOf = (w.declared d').map w.keyOf)
    (hd : w.Reachable ds d) (hkey : w.keyOf d = some key) : ∃ d' ∈ calls, w.keyOf d' = some key := by
  have hseen : seen' = (calls.filterMap w.keyOf).reverse := by simpa using h.seen_eq
  have hmem {k : DependencyKey} (hk : k ∈ seen') : ∃ d' ∈ calls, w.keyOf d' = some k := by
    simpa [hseen] using hk
  induction hd generalizing key with
  | listed hd => exact hmem (h.closed.1 _ hd key hkey)
  | @declared d d' hd hd' ih =>
    obtain ⟨k, hk⟩ : ∃ k, w.keyOf d = some k := Option.isSome_iff_exists.1 (keyed_of_declared hd')
    obtain ⟨d₀, hd₀, hk₀⟩ := ih hk
    have hdeclared := hsame d d₀ hd (h.sound d₀ hd₀).2 (hk.trans hk₀.symm)
    have hmap : some key ∈ (w.declared d).map w.keyOf := hkey ▸ List.mem_map_of_mem hd'
    rw [hdeclared] at hmap
    obtain ⟨d₁, hd₁, hk₁⟩ := List.mem_map.1 hmap
    exact hmem (h.closed.2 d₀ hd₀ d₁ hd₁ key hk₁)

/-! ### The visit ends -/

/-- How many entries the wrappers whose keys were not seen were declared with. -/
def unseenParts (seen : List DependencyKey) : List (DependencyKey × List Dependency) → Nat
  | [] => 0
  | (key, ds) :: rest => (if key ∈ seen then 0 else ds.length) + unseenParts seen rest

/-- The memos and the probes by their keys, and what they were declared with. -/
def declarations (w : World) : List (DependencyKey × List Dependency) :=
  w.memos.entries.map (fun e => (.memo e.1, e.2.dependencies)) ++
    w.probes.entries.map fun e => (.shared e.2.key, e.2.dependencies.getD [])

theorem unseenParts_nil (l : List (DependencyKey × List Dependency)) :
    unseenParts [] l = (l.flatMap (·.2)).length := by
  induction l with
  | nil => rfl
  | cons e rest ih => simp [unseenParts, ih]

theorem unseenParts_cons_le (key : DependencyKey) (seen : List DependencyKey)
    (l : List (DependencyKey × List Dependency)) :
    unseenParts (key :: seen) l ≤ unseenParts seen l := by
  induction l with
  | nil => exact Nat.le_refl _
  | cons e rest ih =>
    by_cases h : e.1 ∈ seen <;> by_cases hk : e.1 = key <;> simp [unseenParts, h, hk] <;> omega

/-- Expanding a wrapper pays for the entries that it adds. -/
theorem unseenParts_expand {l : List (DependencyKey × List Dependency)} (h : (key, ds) ∈ l)
    (hkey : key ∉ seen) : ds.length + unseenParts (key :: seen) l ≤ unseenParts seen l := by
  induction l with
  | nil => cases h
  | cons e rest ih =>
    rcases List.mem_cons.1 h with rfl | h
    · have := unseenParts_cons_le key seen rest
      simp [unseenParts, hkey]
      omega
    · have := ih h
      by_cases he : e.1 ∈ seen <;> by_cases hk : e.1 = key <;> simp [unseenParts, he, hk] <;> omega

theorem unseenParts_declarations (w : World) : unseenParts [] w.declarations = w.declaredCount := by
  simp [unseenParts_nil, declarations, declaredCount, List.flatMap_map]

theorem mem_declarations (hkey : w.keyOf d = some key) :
    w.declared d = [] ∨ (key, w.declared d) ∈ w.declarations := by
  cases d with
  | plain v | state s => exact .inl rfl
  | memo m =>
    cases hm : w.memos.get? m with
    | none => exact .inl (by simp [declared, hm])
    | some x =>
      obtain rfl := Option.some.inj hkey
      refine .inr (List.mem_append_left _ (List.mem_map.2 ⟨_, Store.mem_of_get? hm, ?_⟩))
      simp [declared, hm]
  | probe p =>
    obtain ⟨x, hx, rfl⟩ := Option.map_eq_some_iff.1 hkey
    refine .inr (List.mem_append_right _ (List.mem_map.2 ⟨_, Store.mem_of_get? hx, ?_⟩))
    simp [declared, hx]

theorem keyOf_congr (hp : u.probes = w.probes) : u.keyOf = w.keyOf := by
  funext d
  cases d <;> simp [keyOf, hp]

theorem declared_congr (hp : u.probes = w.probes) (hm : u.memos = w.memos) :
    u.declared = w.declared := by
  funext d
  cases d <;> simp [declared, hp, hm]

/-- A list with enough steps ahead is visited to its end, and the steps track what is visited, one
after another. -/
theorem exists_visit (n : Nat) : ∀ (seen : List DependencyKey) (ds : List Dependency),
    ds.length + unseenParts seen w.declarations ≤ n →
    ∃ calls seen', w.Visit seen ds calls seen' ∧ ∀ u : World, u.probes = w.probes →
      u.memos = w.memos → u.run (trackSteps n seen ds) = u.run (forM calls trackOne) := by
  -- The fuel pays for the list and for every wrapper not yet seen; a wrapper seen first is expanded in
  -- place.
  induction n with
  | zero =>
    intro seen ds hn
    obtain rfl : ds = [] := List.length_eq_zero_iff.1 (by omega)
    exact ⟨[], seen, .nil, fun _ _ _ => rfl⟩
  | succ n ih =>
    intro seen ds hn
    cases ds with
    | nil => exact ⟨[], seen, .nil, fun _ _ _ => rfl⟩
    | cons d rest =>
      rw [List.length_cons] at hn
      cases hkey : w.keyOf d with
      | none =>
        obtain ⟨calls, seen', hvisit, hrun⟩ := ih seen rest (by omega)
        refine ⟨calls, seen', .plain hkey hvisit, fun u hp hm => ?_⟩
        simp only [trackSteps, run_bind, run_get, keyOf_congr hp, hkey]
        exact hrun u hp hm
      | some key =>
        by_cases hseen : key ∈ seen
        · obtain ⟨calls, seen', hvisit, hrun⟩ := ih seen rest (by omega)
          refine ⟨calls, seen', .again hkey hseen hvisit, fun u hp hm => ?_⟩
          simp only [trackSteps, run_bind, run_get, keyOf_congr hp, hkey,
            List.contains_iff_mem.2 hseen, if_true]
          exact hrun u hp hm
        · have hfit : (w.declared d ++ rest).length + unseenParts (key :: seen) w.declarations ≤ n := by
            rw [List.length_append]
            rcases mem_declarations hkey with hnone | hmem
            · have := unseenParts_cons_le key seen w.declarations
              rw [hnone, List.length_nil]
              omega
            · have := unseenParts_expand hmem hseen
              omega
          obtain ⟨calls, seen', hvisit, hrun⟩ := ih (key :: seen) _ hfit
          -- Its declared list and the rest are visited as one list: the visit is cut where the declared
          -- list ends.
          obtain ⟨below, seen₁, after, hdeeper, hnext, rfl⟩ := hvisit.of_append
          refine ⟨_, seen', .first hkey hseen hdeeper hnext, fun u hp hm => ?_⟩
          have hnot : seen.contains key = false := Bool.eq_false_iff.2 fun h =>
            hseen (List.contains_iff_mem.1 h)
          simp only [trackSteps, run_bind, run_get, keyOf_congr hp, hkey, hnot, Bool.false_eq_true,
            if_false, declared_congr hp hm, List.forM_cons]
          obtain ⟨graph, signals, log, hone⟩ := trackOne_aside u d
          rcases hr : u.run (trackOne d) with ⟨_ | _, u'⟩
          · rfl
          · obtain rfl : u' = _ := (congrArg Prod.snd hr).symm.trans hone
            exact hrun _ hp hm

/-! ### What tracking does -/

def trackLine? (w : World) : Dependency → Option String
  | .probe p => (w.probes.get? p).map fun x => "track:" ++ x.name
  | _ => none

end World

/-- The state that an entry of a dependency list stands for. -/
def Dependency.state? : Dependency → Option Nat
  | .state s => some s
  | _ => none

theorem Dependency.state?_eq_some {d : Dependency} {s : Nat} : d.state? = some s ↔ d = .state s := by
  cases d <;> simp [state?]

namespace World

variable {w u : World} {d : Dependency} {key : DependencyKey} {seen seen' : List DependencyKey}
  {ds es calls : List Dependency}

theorem run_forM_trackOne (hfree : ∀ s, .state s ∈ calls →
      ((w.signals.get? s).getD default).writing = false) (g : Graph) (log : List String) :
    { w with graph := g, log := log }.run (forM calls trackOne) =
      (.ok ⟨⟩, { w with
        graph := (calls.filterMap Dependency.state?).foldl Graph.track g
        log := log ++ calls.filterMap w.trackLine? }) := by
  induction calls generalizing g log with
  | nil => simp
  | cons d rest ih =>
    have ih := ih fun s hs => hfree s (List.mem_cons_of_mem _ hs)
    rw [List.forM_cons, run_bind]
    cases d with
    | plain v | memo m => exact ih g log
    | state s =>
      have hone := run_trackOne (w := { w with graph := g, log := log }) (hfree s List.mem_cons_self)
      rw [hone]
      exact ih (g.track s) log
    | probe p =>
      rw [List.filterMap_cons_none rfl]
      cases hp : w.probes.get? p with
      | none =>
        rw [List.filterMap_cons_none (by simp [trackLine?, hp])]
        simpa [trackOne, run_bind, hp] using ih g log
      | some x =>
        have hline : w.trackLine? (.probe p) = some ("track:" ++ x.name) := by simp [trackLine?, hp]
        rw [List.filterMap_cons_some hline]
        simpa [trackOne, run_bind, hp, Act.log] using ih g (log ++ ["track:" ++ x.name])

/-! ### The closure -/

/-- Entries with the same key that a list reaches were declared with the same keys. -/
def Agreeing (w : World) (ds : List Dependency) : Prop :=
  ∀ d d', w.Reachable ds d → w.Reachable ds d' → w.keyOf d = w.keyOf d' →
    (w.declared d).map w.keyOf = (w.declared d').map w.keyOf

/-- No state that a list reaches is being changed in place. -/
def Readable (w : World) (ds : List Dependency) : Prop :=
  ∀ s, w.Reachable ds (.state s) → ((w.signals.get? s).getD default).writing = false

theorem keyOf_eq_signal {s : Nat} : w.keyOf d = some (.signal s) ↔ d = .state s := by
  cases d <;> simp [keyOf]

theorem Visit.mem_states (h : w.Visit [] ds calls seen') (hsame : w.Agreeing ds) {s : Nat} :
    s ∈ calls.filterMap Dependency.state? ↔ w.Reachable ds (.state s) := by
  simp only [List.mem_filterMap, Dependency.state?_eq_some, exists_eq_right]
  refine ⟨fun hs => (h.sound _ hs).2, fun hs => ?_⟩
  obtain ⟨d, hd, hkey⟩ := h.complete hsame hs rfl
  rwa [keyOf_eq_signal.1 hkey] at hd

theorem Visit.nodup_keys (h : w.Visit [] ds calls seen') : (calls.filterMap w.keyOf).Nodup := by
  have hseen := h.nodup List.nodup_nil
  rw [h.seen_eq, List.append_nil] at hseen
  exact List.nodup_reverse.1 hseen

theorem Visit.map_keyOf (h : w.Visit seen ds calls seen') :
    calls.map w.keyOf = (calls.filterMap w.keyOf).map some := by
  have hsound := h.sound
  clear h
  induction calls with
  | nil => rfl
  | cons d rest ih =>
    obtain ⟨key, hkey⟩ := Option.isSome_iff_exists.1 (hsound d List.mem_cons_self).1
    rw [List.map_cons, List.filterMap_cons_some hkey, List.map_cons, hkey,
      ih fun d hd => hsound d (List.mem_cons_of_mem _ hd)]

theorem Visit.without_plain (h : w.Visit seen ds calls seen') :
    w.Visit seen (ds.filter fun d => (w.keyOf d).isSome) calls seen' := by
  induction h with
  | nil => exact .nil
  | plain none _ ih =>
    rw [List.filter_cons_of_neg (by simp [none])]
    exact ih
  | again hkey known _ ih =>
    rw [List.filter_cons_of_pos (by simp [hkey])]
    exact .again hkey known ih
  | @first seen d rest below after seen₁ seen' key hkey new deeper _ _ ih =>
    rw [List.filter_cons_of_pos (by simp [hkey])]
    exact .first hkey new deeper ih

theorem exists_calls (w : World) (ds : List Dependency) : ∃ calls seen', w.Visit [] ds calls seen' ∧
    ∀ u : World, u.probes = w.probes → u.memos = w.memos →
      u.run (trackAll ds) = u.run (forM calls trackOne) := by
  obtain ⟨calls, seen', hvisit, hrun⟩ := exists_visit (w := w) (ds.length + w.declaredCount + 1) [] ds
    (by rw [unseenParts_declarations]; omega)
  refine ⟨calls, seen', hvisit, fun u hp hm => ?_⟩
  rw [← hrun u hp hm, trackAll, run_bind_ok u.run_get, declaredCount, declaredCount, hp, hm]

end World

end FineGrain
