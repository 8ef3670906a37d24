import FineGrain.Proofs.Course.Memos
/-!
Whatever refers to a memo refers to one that is bound: handles do, and the dependency lists of memos,
probes and hooks. So nothing can give up a memo in the middle of its creation, and its effect cannot
start again there.
-/

namespace FineGrain

namespace History

variable {h : History} {m : Nat}

/-- A handle on a memo was given a name. -/
def Named (h : History) (m : Nat) : Prop :=
  ∃ number name, .bound number name (.memo m) ∈ h ∨ .bound number name (.callback m) ∈ h

/-- A memo that a handle stands for has had a name. -/
def Refers (h : History) : Handle → Prop
  | .memo m | .callback m => h.Named m
  | _ => True

/-- A memo that a handle stands for is bound. -/
def Grants (h : History) : Handle → Prop
  | .memo m | .callback m => h.Born m
  | _ => True

/-- The memos of a dependency list are bound. -/
def Knows (h : History) (ds : List Dependency) : Prop := ∀ m, .memo m ∈ ds → h.Born m

/-- The memos among some things are bound. -/
def Owns (h : History) (things : List Owned) : Prop := ∀ m, .memo m ∈ things → h.Born m

theorem named_cons {ev : Event} (hm : Named (ev :: h) m) :
    (∃ number name, ev = .bound number name (.memo m) ∨ ev = .bound number name (.callback m)) ∨
      h.Named m := by
  obtain ⟨number, name, hm⟩ := hm
  rw [List.mem_cons, List.mem_cons] at hm
  obtain (hnew | hm) | hnew | hm := hm
  · exact .inl ⟨number, name, .inl hnew.symm⟩
  · exact .inr ⟨number, name, .inl hm⟩
  · exact .inl ⟨number, name, .inr hnew.symm⟩
  · exact .inr ⟨number, name, .inr hm⟩

theorem knows_nil : h.Knows [] := nofun

theorem owns_nil : h.Owns [] := fun _ hm => absurd hm List.not_mem_nil

theorem owns_allOwned {ds : List Dependency} (hds : h.Knows ds) : h.Owns (Dependency.allOwned ds) := by
  intro m hm
  obtain ⟨x, hx, hm⟩ := List.mem_flatMap.1 hm
  cases x with
  | memo k =>
    obtain rfl : m = k := by simpa [Dependency.owned] using hm
    exact hds m hx
  | _ => simp [Dependency.owned] at hm

theorem owns_single {o : Owned} (ho : ∀ m, o = .memo m → h.Born m) : h.Owns [o] :=
  fun m hm => ho m (List.mem_singleton.1 hm).symm

theorem owns_append {l l' : List Owned} (hl : h.Owns l) (hl' : h.Owns l') : h.Owns (l ++ l') :=
  fun m hm => (List.mem_append.1 hm).elim (hl m) (hl' m)

end History

namespace World

/-- A dependency list that something was declared with. -/
inductive Lists (w : World) : List Dependency → Prop
  | memo {m : Nat} {x : Memo} (there : w.memos.get? m = some x) : Lists w x.dependencies
  | probe {p : Nat} {x : Probe} {ds : List Dependency} (there : w.probes.get? p = some x)
      (declared : x.dependencies = some ds) : Lists w ds
  | hook {k : Nat} {x : HookSlot} {ds : List Dependency} (there : w.hooks.get? k = some x)
      (declared : x.dependencies = some ds) : Lists w ds

end World

namespace Event

/-- What a step may declare something with. -/
def Declares : Event → List Dependency → Prop
  | memoMade _ _ ds, l => ds = l
  | hookMade _ _ _ _ ds, l => ds = some l
  | aside w, l => ∃ p x, w.probes.get? p = some x ∧ x.dependencies = some l
  | _, _ => False

/-- A step that neither makes a memo nor ends a run, and after which nothing more refers to memos. -/
def Inner : Event → Prop
  | aside _ | finished _ _ | memoMade _ _ _ | hookMade _ _ _ _ _ | bound _ _ _ => False
  | _ => True

/-- A step that has nothing to do with memos and with what refers to them. -/
def Routine (w : World) : Event → Prop
  | aside w' => w'.probes = w.probes
  | started _ _ _ _ | finished _ _ | memoMade _ _ _ | computing _ | computed _ _ | recomputing _
  | recomputed _ _ | memoBound _ _ | memoGone _ | hookMade _ _ _ _ _ | bound _ _ _ => False
  | _ => True

end Event

namespace History

variable {h : History} {ev : Event}

/-- A step that is made where nothing is prescribed, and that has nothing to do with memos. -/
def Common (h : History) : Event → Prop
  | .taskBegun _ | .taskDone .phases | .flushed | .jobBegun _ | .jobDone _ | .phasesOver
  | .bodyBegun _ _ _ | .bodyEnded _ _ _ | .bodySkipped _ => False
  | ev => ev.Routine h.world

theorem Common.ordinary (hev : h.Common ev) : h.Ordinary ev := by
  cases ev with
  | started => exact hev.elim
  | taskDone t => cases t <;> first | exact hev.elim | trivial
  | _ => first | exact hev.elim | trivial

theorem Common.routine (hev : h.Common ev) : ev.Routine h.world := by
  cases ev with
  | taskDone t => trivial
  | _ => first | exact hev | exact hev.elim

end History

namespace Course

variable {c d : Course} {ev : Event} {l : List Dependency} {handle : Handle} {m : Nat}

theorem knows_mono (h : c ≤ d) (hl : c.history.Knows l) : d.history.Knows l :=
  fun m hm => born_mono h (hl m hm)

theorem named_mono (h : c ≤ d) (hm : c.history.Named m) : d.history.Named m := by
  obtain ⟨number, name, hm⟩ := hm
  exact ⟨number, name, hm.imp (List.IsSuffix.subset h ·) (List.IsSuffix.subset h ·)⟩

theorem refers_mono (h : c ≤ d) (hh : c.history.Refers handle) : d.history.Refers handle := by
  cases handle <;> first | exact named_mono h hh | trivial

theorem refers_of_bound {number : Nat} {name : String} (h : .bound number name handle ∈ c.history) :
    c.history.Refers handle := by
  cases handle with
  | memo m => exact ⟨number, name, .inl h⟩
  | callback m => exact ⟨number, name, .inr h⟩
  | _ => trivial

theorem refers_of_handle {k : Nat} {y : Held} (h : c.world.handles.get? k = some y) :
    c.history.Refers y.handle := by
  induction c using Course.induction generalizing k y with
  | start => cases h
  | push c ev hev ih =>
    obtain ⟨number, name, rfl⟩ | ⟨i, x, hx, hyx⟩ := handle_step hev h
    · exact refers_of_bound (List.mem_cons_self : Event.bound number name y.handle ∈ _)
    · rw [hyx]
      exact refers_mono (le_push hev) (ih hx)

theorem owns_mono {things : List Owned} (h : c ≤ d) (hl : c.history.Owns things) :
    d.history.Owns things :=
  fun m hm => born_mono h (hl m hm)

theorem lists_step (hev : c.history.Allows ev) (h : (ev.world c.world).Lists l) :
    ev.Declares l ∨ c.world.Lists l := by
  cases h with
  | memo hx =>
    obtain ⟨ds, rfl, -, -, hds⟩ | ⟨y, hy, -, hds, -⟩ := memo_step hev hx
    · exact .inl hds.symm
    · rw [hds]
      exact .inr (.memo hy)
  | probe hx hds =>
    cases ev with
    | aside w => exact .inl ⟨_, _, hx, hds⟩
    | composing s => exact .inr (.probe (by simpa [Event.world, World.opened_eq] using hx) hds)
    | _ => exact .inr (.probe hx hds)
  | hook hx hds =>
    cases ev with
    | aside w => exact .inr (.hook (World.Aside.hooks hev ▸ hx :) hds)
    | hookMade k =>
      rcases Store.of_put hx with ⟨-, rfl⟩ | hx
      · exact .inl hds
      · exact .inr (.hook hx hds)
    | jobQueued k | jobBegun k | cleanupBegun k | bodyBegun k | bodyEnded k | hookDisposed k =>
      obtain ⟨y, hy, rfl⟩ := Store.of_modify hx
      refine .inr (.hook hy ?_)
      split at hds <;> exact hds
    | composing s => exact .inr (.hook (by simpa [Event.world, World.opened_eq] using hx) hds)
    | _ => exact .inr (.hook hx hds)

/-- The steps of memos stand in their places, and whatever refers to a memo refers to one that is bound. -/
structure Founded (c : Course) : Prop where
  faithful : c.Faithful
  named : ∀ m, c.history.Named m → c.history.Born m
  lists : ∀ l, c.world.Lists l → c.history.Knows l

theorem Founded.push (hc : c.Founded) (hev : c.history.Allows ev) (hplaced : c.history.Placed ev)
    (hbound : ∀ number name handle, ev = .bound number name handle → c.history.Grants handle)
    (hdeclares : ∀ l, ev.Declares l → c.history.Knows l) : (c.push ev hev).Founded where
  faithful := ⟨hc.faithful, hplaced⟩
  named m hm := by
    obtain ⟨number, name, hnew | hnew⟩ | hm := History.named_cons hm
    · exact born_mono (le_push hev) (hbound number name _ hnew)
    · exact born_mono (le_push hev) (hbound number name _ hnew)
    · exact born_mono (le_push hev) (hc.named m hm)
  lists l hl := knows_mono (le_push hev) ((lists_step hev hl).elim (hdeclares l) (hc.lists l))

theorem Founded.grants (hc : c.Founded) (h : c.history.Refers handle) : c.history.Grants handle := by
  cases handle <;> first | exact hc.named _ h | trivial

/-- Besides, the effect of a memo that is not bound is running. -/
structure Neat (c : Course) : Prop extends Founded c where
  calm : ∀ e x m, c.world.effects.get? e = some x → x.computation = .memo m → x.running = false →
    c.history.Born m

theorem neat_start : start.Neat where
  faithful := trivial
  named _ h := by
    obtain ⟨_, _, h | h⟩ := h <;> cases h
  lists _ h := by rcases h with ⟨⟨⟩⟩ | ⟨⟨⟩, -⟩ | ⟨⟨⟩, -⟩
  calm _ _ _ h := by cases h

theorem Neat.of_founded {hev : c.history.Allows ev} (hfounded : (c.push ev hev).Founded) (hc : c.Neat)
    (hmade : ∀ m factory ds, ev ≠ .memoMade m factory ds)
    (hfinished : ∀ e before x m, ev = .finished e before → c.world.effects.get? e = some x →
      x.computation = .memo m → c.history.Born m) : (c.push ev hev).Neat where
  toFounded := hfounded
  calm e x m hx hcomputation hidle := by
    obtain ⟨-, -, hnew⟩ | ⟨y, hy, hxy, hrunning⟩ := effect_step hev hx
    · obtain ⟨-, factory, ds, hnew⟩ := hnew m hcomputation
      exact absurd hnew (hmade m factory ds)
    rw [hxy] at hcomputation
    refine born_mono (le_push hev) ?_
    obtain hsame | ⟨hstarted, -⟩ | ⟨before, hends⟩ := hrunning
    · exact hc.calm e y m hy hcomputation (hsame.symm.trans hidle)
    · rw [hstarted] at hidle
      cases hidle
    · exact hfinished e before y m hends hy hcomputation

theorem Neat.place {hev : c.history.Allows ev} (hinner : ev.Inner) (hc : c.Neat)
    (hplaced : c.history.Placed ev) : (c.push ev hev).Neat := by
  refine .of_founded (hc.toFounded.push hev hplaced ?_ fun l hl => ?_) hc ?_ ?_
  · rintro _ _ _ rfl
    exact hinner.elim
  · cases ev <;> first | exact hl.elim | exact hinner.elim
  · rintro _ _ _ rfl
    exact hinner
  · rintro _ _ _ _ rfl
    exact hinner.elim

theorem Neat.push {hev : c.history.Allows ev} (hroutine : ev.Routine c.world) (hc : c.Neat) :
    (c.push ev hev).Neat := by
  refine .of_founded (hc.toFounded.push hev ?_ ?_ ?_) hc ?_ ?_
  · cases ev <;> first | exact trivial | exact hroutine.elim
  · rintro number name handle rfl
    exact hroutine.elim
  · intro l hl
    cases ev with
    | aside w =>
      obtain ⟨p, x, hx, hds⟩ := hl
      rw [show w.probes = c.world.probes from hroutine] at hx
      exact hc.lists l (.probe hx hds)
    | memoMade | hookMade => exact hroutine.elim
    | _ => exact hl.elim
  · rintro m factory ds rfl
    exact hroutine
  · rintro e before x m rfl
    exact hroutine.elim

theorem Neat.started {e depth : Nat} {providers before : List Provider}
    {hev : c.history.Allows (.started e depth providers before)} (hc : c.Neat) :
    (c.push _ hev).Neat := by
  refine hc.place trivial fun x m hx hcomputation => ?_
  obtain ⟨-, y, hy, hidle, -⟩ := id hev
  obtain rfl : x = y := Option.some.inj (hx.symm.trans hy)
  exact .inl (hc.calm e x m hx hcomputation hidle)

theorem Neat.finished {e : NodeId} {before : List Provider}
    {hev : c.history.Allows (.finished e before)} (hc : c.Neat)
    (hborn : ∀ x m, c.world.effects.get? e = some x → x.computation = .memo m → c.history.Born m) :
    (c.push _ hev).Neat := by
  refine .of_founded (hc.toFounded.push hev trivial nofun nofun) hc nofun ?_
  rintro e before x m ⟨⟩ hx hcomputation
  exact hborn x m hx hcomputation

theorem Neat.makeMemo {factory : Factory} {depth : Nat} {providers before : List Provider} (hc : c.Neat)
    (hl : c.history.Knows l) (hmade : c.history.Allows (.memoMade m factory l))
    (hstarted : (c.push _ hmade).history.Allows (.started (m + 1) depth providers before)) :
    ((c.push _ hmade).push _ hstarted).Neat := by
  have hfounded : (c.push _ hmade).Founded := by
    refine hc.toFounded.push hmade trivial nofun ?_
    rintro l ⟨⟩
    exact hl
  refine { toFounded := hfounded.push hstarted ?_ nofun nofun, calm := ?_ }
  · intro x k hx hcomputation
    have he := (memo_of_effect (c := c.push _ hmade) hx hcomputation).1
    obtain rfl : m = k := Nat.succ.inj he
    exact .inr ⟨factory, l, rfl⟩
  · intro e x k hx hcomputation hidle
    by_cases he : e = m + 1
    · obtain ⟨-, y, hy, -⟩ := id hstarted
      have hy : (c.push _ hmade).world.effects.get? (m + 1) = some y := hy
      simp only [world_push, Event.world, World.starting, Store.get?_modify, he, if_true] at hx
      simp only [world_push, Event.world] at hy
      rw [hy] at hx
      cases hx
      cases hidle
    · obtain ⟨-, -, hnew⟩ | ⟨y, hy, hxy, hsame | ⟨hrunning, -⟩ | ⟨_, ⟨⟩⟩⟩ := effect_step hstarted hx
      · obtain ⟨-, _, _, ⟨⟩⟩ := hnew k hcomputation
      · rw [hxy] at hcomputation
        obtain ⟨-, -, hnew⟩ | ⟨z, hz, hyz, hsame' | ⟨-, _, _, _, ⟨⟩⟩ | ⟨_, ⟨⟩⟩⟩ := effect_step hmade hy
        · obtain ⟨rfl, _, _, ⟨⟩⟩ := hnew k hcomputation
          exact absurd rfl he
        · rw [hyz] at hcomputation
          exact born_mono ((le_push hmade).trans (le_push hstarted))
            (hc.calm e z k hz hcomputation (hsame'.symm.trans (hsame.symm.trans hidle)))
      · rw [hrunning] at hidle
        cases hidle

/-- The first run for a memo ends, and the memo is bound. -/
theorem Neat.bindMemo {before : List Provider} {v : Cached} (hc : c.Neat)
    (hfinished : c.history.Allows (.finished (m + 1) before))
    (hbound : (c.push _ hfinished).history.Allows (.memoBound m v))
    (hplaced : (c.push _ hfinished).history.Placed (.memoBound m v)) :
    ((c.push _ hfinished).push _ hbound).Neat := by
  have hfounded := hc.toFounded.push hfinished trivial nofun nofun
  refine { toFounded := hfounded.push hbound hplaced nofun nofun, calm := ?_ }
  intro e x k hx hcomputation hidle
  obtain ⟨-, -, hnew⟩ | ⟨y, hy, hxy, hrunning⟩ := effect_step hfinished hx
  · obtain ⟨-, _, _, ⟨⟩⟩ := hnew k hcomputation
  obtain hsame | ⟨-, _, _, _, ⟨⟩⟩ | ⟨_, ⟨⟩⟩ := hrunning
  · rw [hxy] at hcomputation
    exact born_mono ((le_push hfinished).trans (le_push hbound))
      (hc.calm e y k hy hcomputation (hsame.symm.trans hidle))
  · have he := (memo_of_effect (c := c.push _ hfinished) hx hcomputation).1
    obtain rfl : m = k := Nat.succ.inj he
    exact ⟨v, List.mem_cons_self⟩

/-- What was made of a course that was punctual, or in which whatever refers to a memo refers to one that is
bound. -/
structure Keeps (c d : Course) : Prop where
  punctual : c.Punctual → d.Punctual
  neat : c.Neat → d.Neat

theorem Keeps.refl (c : Course) : c.Keeps c := ⟨id, id⟩

theorem Keeps.trans {b c d : Course} (h : b.Keeps c) (h' : c.Keeps d) : b.Keeps d :=
  ⟨fun hb => h'.punctual (h.punctual hb), fun hb => h'.neat (h.neat hb)⟩

end Course

end FineGrain
