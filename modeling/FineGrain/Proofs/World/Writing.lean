import FineGrain.Proofs.World.Looking
/-!
Coalesced writes. Code that only writes states leaves their values alone: it fills caches, and queues
a commit for each state whose cache was empty.
-/

namespace FineGrain

open Act

/-- What writing does to a signal; `first` tells whether a commit has been queued for it. -/
structure Signal.Drafted (x x' : Signal) (first : Prop) : Prop where
  value : x'.value = x.value
  readers : x'.readers = x.readers
  writing : x'.writing = x.writing
  queued : first → x.dirty = false ∧ x'.dirty = true ∧ x'.clones = x.clones + 1
  unqueued : ¬ first → x'.dirty = x.dirty ∧ x'.clones = x.clones
  filled : x'.dirty = true → x.dirty = false ∨ x.cache.isSome → x'.cache.isSome
  untouched : x'.dirty = false → x'.cache = x.cache

namespace Signal.Drafted

variable {x x' x'' : Signal} {first first' : Prop}

theorem refl (x : Signal) : x.Drafted x False :=
  ⟨rfl, rfl, rfl, False.elim, fun _ => ⟨rfl, rfl⟩, fun h h' => h'.resolve_left (by simp [h]),
    fun _ => rfl⟩

theorem trans (h : x.Drafted x' first) (h' : x'.Drafted x'' first') :
    x.Drafted x'' (first ∨ first') := by
  refine ⟨h'.value.trans h.value, h'.readers.trans h.readers, h'.writing.trans h.writing, ?_, ?_,
    ?_, ?_⟩
  · by_cases hf : first
    · obtain ⟨hd, hd', hc⟩ := h.queued hf
      have hf' : ¬ first' := fun hf' => by simp [(h'.queued hf').1] at hd'
      obtain ⟨hd'', hc'⟩ := h'.unqueued hf'
      exact fun _ => ⟨hd, hd''.trans hd', hc'.trans hc⟩
    · obtain ⟨hd, hc⟩ := h.unqueued hf
      rintro (hf' | hf')
      · exact absurd hf' hf
      · obtain ⟨hd', hd'', hc'⟩ := h'.queued hf'
        exact ⟨hd ▸ hd', hd'', hc ▸ hc'⟩
  · intro hf
    obtain ⟨hd, hc⟩ := h.unqueued (fun hf' => hf (.inl hf'))
    obtain ⟨hd', hc'⟩ := h'.unqueued (fun hf' => hf (.inr hf'))
    exact ⟨hd'.trans hd, hc'.trans hc⟩
  · intro hd'' hx
    refine h'.filled hd'' ?_
    cases hd' : x'.dirty with
    | false => exact .inl rfl
    | true => exact .inr (h.filled hd' hx)
  · intro hd''
    have hf' : ¬ first' := fun hf' => by simp [(h'.queued hf').2.1] at hd''
    have hd' : x'.dirty = false := (h'.unqueued hf').1 ▸ hd''
    exact (h'.untouched hd'').trans (h.untouched hd')

theorem around (hd : x.dirty = true) (h : ({ x with cache := none } : Signal).Drafted x' first)
    (v : Value) : x.Drafted { x' with cache := some v } False := by
  have hf : ¬ first := fun hf => by simp [hd] at h; simpa [hd] using (h.queued hf).1
  obtain ⟨hd', hc⟩ := h.unqueued hf
  exact ⟨h.value, h.readers, h.writing, False.elim, fun _ => ⟨hd', hc⟩, fun _ _ => rfl,
    fun hn => by simp [hd', hd] at hn⟩

end Signal.Drafted

namespace World

/-- A world in which code has written some states: for those in `first` a commit is queued. -/
structure Drafted (w w' : World) (first : List Nat) : Prop where
  rest : w' = { w with
    log := w'.log
    refs := w'.refs
    signals := w'.signals
    tasks := w.tasks ++ first.map .commit }
  nodup : first.Nodup
  absent : ∀ s, w.signals.get? s = none → w'.signals.get? s = none ∧ s ∉ first
  present : ∀ s x, w.signals.get? s = some x →
    ∃ x', w'.signals.get? s = some x' ∧ x.Drafted x' (s ∈ first)

variable {w w' w'' : World} {first first' : List Nat} {s : Nat}

theorem Drafted.refl (w : World) : w.Drafted w [] where
  rest := by simp
  nodup := List.nodup_nil
  absent := fun s h => ⟨h, by simp⟩
  present := fun s x h => ⟨x, h, by simpa using Signal.Drafted.refl x⟩

theorem Drafted.isSome (h : w.Drafted w' first) (s : Nat) :
    (w'.signals.get? s).isSome = (w.signals.get? s).isSome := by
  cases hs : w.signals.get? s with
  | none => rw [(h.absent s hs).1]
  | some x =>
    obtain ⟨x', hx', _⟩ := h.present s x hs
    rw [hx']
    rfl

theorem Drafted.disjoint (h : w.Drafted w' first) (h' : w'.Drafted w'' first') (hs : s ∈ first) :
    s ∉ first' := by
  intro hs'
  cases hx : w.signals.get? s with
  | none => exact (h.absent s hx).2 hs
  | some x =>
    obtain ⟨x', hx', hd⟩ := h.present s x hx
    obtain ⟨x'', _, hd'⟩ := h'.present s x' hx'
    have := (hd.queued hs).2.1
    simp [(hd'.queued hs').1] at this

theorem Drafted.trans (h : w.Drafted w' first) (h' : w'.Drafted w'' first') :
    w.Drafted w'' (first ++ first') where
  rest := by
    rw [h'.rest, h.rest]
    simp
  nodup := List.nodup_append.2 ⟨h.nodup, h'.nodup, fun a ha b hb => by
    rintro rfl
    exact h.disjoint h' ha hb⟩
  absent := fun s hs => by
    obtain ⟨hs', hf⟩ := h.absent s hs
    obtain ⟨hs'', hf'⟩ := h'.absent s hs'
    exact ⟨hs'', by simp [hf, hf']⟩
  present := fun s x hx => by
    obtain ⟨x', hx', hd⟩ := h.present s x hx
    obtain ⟨x'', hx'', hd'⟩ := h'.present s x' hx'
    exact ⟨x'', hx'', by simpa using hd.trans hd'⟩

theorem Drafted.scope (h : w.Drafted w' first) : w'.scope = w.scope := by
  rw [h.rest]
  rfl

theorem Drafted.probes (h : w.Drafted w' first) : w'.probes = w.probes := by
  rw [h.rest]

theorem Drafted.observers (h : w.Drafted w' first) :
    w'.graph.observers = w.graph.observers := by
  rw [h.rest]

theorem Drafted.calm (h : w.Drafted w' first) (hc : w.Calm) : w'.Calm := by
  intro s x' hx'
  cases hx : w.signals.get? s with
  | none => simp [(h.absent s hx).1] at hx'
  | some x =>
    obtain ⟨y, hy, hd⟩ := h.present s x hx
    obtain rfl : y = x' := by simpa [hx'] using hy.symm
    rw [hd.writing, hc s x hx]

theorem Looked.drafted (h : w.Looked w') (ho : w.graph.observers = []) : w.Drafted w' [] := by
  obtain ⟨lines, refs, sources, rfl⟩ := h
  rw [Graph.trackAll_unobserved (by simp [Graph.observer?, ho])]
  refine ⟨by simp, List.nodup_nil, fun s hs => ⟨hs, by simp⟩, fun s x hx => ⟨x, hx, ?_⟩⟩
  simpa using Signal.Drafted.refl x

end World

/-- Under the given names, and as long as the given states are there, an act only writes some of
them. -/
def Act.Drafts {α : Type} (scope : List (String × Nat) × Store Held) (states : List Nat)
    (a : Act α) : Prop :=
  ∀ w : World, w.scope = scope → w.Calm → w.probes = .empty → w.graph.observers = [] →
    (∀ s ∈ states, (w.signals.get? s).isSome) →
    ∃ v w' first, w.run a = (.ok v, w') ∧ w.Drafted w' first ∧ ∀ s ∈ first, s ∈ states

namespace Act

variable {α β : Type} {scope : List (String × Nat) × Store Held} {states : List Nat} {s : Nat}

theorem Looks.drafts {a : Act α} (h : Looks scope a) : Drafts scope states a := by
  intro w hs hc hp ho _
  obtain ⟨v, w', hv, hl⟩ := h w hs hc hp
  exact ⟨v, w', [], hv, hl.drafted ho, by simp⟩

end Act

namespace World

variable {w : World} {s : Nat} {x : Signal}

/-- The world in which the next value of a state is worked out: a commit is queued, and the cache is
empty. -/
def opened (w : World) (s : Nat) (x : Signal) : World :=
  if x.dirty then { w with signals := w.signals.modify s fun x => { x with cache := none } }
  else
    { w with
      signals := w.signals.modify s fun x =>
        { x with dirty := true, cache := none, clones := x.clones + 1 }
      tasks := w.tasks ++ [.commit s] }

/-- The value that a write is composed on. -/
def pendingValue (x : Signal) : Value := if x.dirty then x.cache.getD x.value else x.value

theorem run_write (hs : w.signals.get? s = some x) (hw : x.writing = false)
    (next : Value → Act Value) :
    w.run (write s next) = (w.opened s x).run (do
      let v ← next (pendingValue x)
      modifySignal s fun x => { x with cache := some v }) := by
  cases hd : x.dirty with
  | true =>
    have hread : ({ w with signals := w.signals.modify s fun x => { x with cache := none } } :
        World).run (Act.read s) = (.ok x.value, { w with
          signals := w.signals.modify s fun x => { x with cache := none } }) := by
      rw [run_read _ (by simp [Store.get?_modify, hs, hw])]
      simp [Store.get?_modify, hs]
    cases hc : x.cache <;>
      simp [write, run_bind, hs, hd, hc, opened, pendingValue, hread]
  | false =>
    have hread : ({ w with signals := w.signals.modify s fun x => { x with dirty := true } } :
        World).run (Act.read s) = (.ok x.value, { w with
          signals := w.signals.modify s fun x => { x with dirty := true } }) := by
      rw [run_read _ (by simp [Store.get?_modify, hs, hw])]
      simp [Store.get?_modify, hs]
    simp [write, run_bind, hs, hd, opened, pendingValue, hread, Act.retain, World.retain,
      Store.get?_modify, Store.modify_modify, Function.comp_def]

theorem Drafted.of_modify {f : Signal → Signal} (first : Prop) [Decidable first]
    (hs : w.signals.get? s = some x) (h : x.Drafted (f x) first) :
    w.Drafted { w with
      signals := w.signals.modify s f
      tasks := w.tasks ++ (if first then [s] else []).map .commit }
      (if first then [s] else []) where
  rest := rfl
  nodup := by split <;> simp
  absent := fun t ht => by
    have hne : t ≠ s := by
      rintro rfl
      simp [hs] at ht
    refine ⟨by simp [Store.get?_modify, ht], ?_⟩
    split <;> simp [hne]
  present := fun t y hy => by
    by_cases hne : t = s
    · subst hne
      obtain rfl : x = y := by simpa [hs] using hy
      refine ⟨f x, by simp [Store.get?_modify, hs], ?_⟩
      by_cases hf : first <;> simpa [hf] using h
    · refine ⟨y, by simp [Store.get?_modify, hne, hy], ?_⟩
      by_cases hf : first <;> simpa [hf, hne] using Signal.Drafted.refl y

/-- What is written while the cache of a state is empty, and then the state itself. -/
theorem Drafted.around {w' : World} {first : List Nat} (hs : w.signals.get? s = some x)
    (hd : x.dirty = true) (h : { w with
      signals := w.signals.modify s fun x => { x with cache := none } }.Drafted w' first)
    (v : Value) : w.Drafted { w' with
      signals := w'.signals.modify s fun x => { x with cache := some v } } first where
  rest := by
    rw [h.rest]
  nodup := h.nodup
  absent := fun t ht => by
    have hne : t ≠ s := by
      rintro rfl
      simp [hs] at ht
    have ht' := h.absent t (by simp [Store.get?_modify, ht])
    exact ⟨by simp [Store.get?_modify, hne, ht'.1], ht'.2⟩
  present := fun t y hy => by
    by_cases hne : t = s
    · subst hne
      obtain rfl : x = y := by simpa [hs] using hy
      obtain ⟨x', hx', hdraft⟩ := h.present t { x with cache := none }
        (by simp [Store.get?_modify, hs])
      have hf : t ∉ first := fun hf => by simpa [hd] using (hdraft.queued hf).1
      refine ⟨{ x' with cache := some v }, by simp [Store.get?_modify, hx'], ?_⟩
      simpa [hf] using Signal.Drafted.around hd hdraft v
    · obtain ⟨y', hy', hdraft⟩ := h.present t y (by simp [Store.get?_modify, hne, hy])
      exact ⟨y', by simp [Store.get?_modify, hne, hy'], hdraft⟩

theorem Drafted.dirty {w' : World} {first : List Nat} (h : w.Drafted w' first)
    (hs : w.signals.get? s = some x) (hd : x.dirty = true) :
    ∃ x', w'.signals.get? s = some x' ∧ x'.dirty = true := by
  obtain ⟨x', hx', hdraft⟩ := h.present s x hs
  have hf : s ∉ first := fun hf => by simpa [hd] using (hdraft.queued hf).1
  exact ⟨x', hx', (hdraft.unqueued hf).1.trans hd⟩

theorem run_write_dirty {scope : List (String × Nat) × Store Held} {states : List Nat}
    {next : Value → Act Value} (hs : s ∈ states) (hnext : ∀ v, Drafts scope states (next v))
    (hscope : w.scope = scope) (hcalm : w.Calm) (hprobes : w.probes = .empty)
    (ho : w.graph.observers = []) (hlive : ∀ t ∈ states, (w.signals.get? t).isSome) :
    ∃ w' first, w.run (write s next) = (.ok ⟨⟩, w') ∧ w.Drafted w' first ∧
      (∀ t ∈ first, t ∈ states) ∧ ∃ x, w'.signals.get? s = some x ∧ x.dirty = true := by
  obtain ⟨x, hx⟩ := Option.isSome_iff_exists.1 (hlive s hs)
  have hrun := run_write hx (hcalm s x hx) next
  -- A world in which the commit is queued and the cache is full; opening empties the cache.
  obtain ⟨w₁, x₁, first, hw₁, hsub₁, hx₁, hd₁, hopen⟩ : ∃ w₁ x₁ first, w.Drafted w₁ first ∧
      (∀ t ∈ first, t ∈ states) ∧ w₁.signals.get? s = some x₁ ∧ x₁.dirty = true ∧ w.opened s x =
        { w₁ with signals := w₁.signals.modify s fun x => { x with cache := none } } := by
    cases hd : x.dirty with
    | true => exact ⟨w, x, [], .refl w, by simp, hx, hd, by simp [opened, hd]⟩
    | false =>
      have hdraft : x.Drafted { x with
          dirty := true
          cache := some x.value
          clones := x.clones + 1 } True :=
        ⟨rfl, rfl, rfl, fun _ => ⟨hd, rfl, rfl⟩, fun h => absurd trivial h, fun _ _ => rfl,
          fun h => by simp at h⟩
      refine ⟨_, { x with dirty := true, cache := some x.value, clones := x.clones + 1 }, _,
        Drafted.of_modify (f := fun x => { x with
          dirty := true
          cache := some x.value
          clones := x.clones + 1 }) True hx hdraft, by simpa using hs,
          by simp [Store.get?_modify, hx], rfl, ?_⟩
      simp [opened, hd, Store.modify_modify, Function.comp_def]
  have hlive₁ (t : Nat) (ht : t ∈ states) : ((w.opened s x).signals.get? t).isSome := by
    rw [hopen, Store.get?_modify]
    have := hw₁.isSome t ▸ hlive t ht
    split <;> simpa using this
  have hcalm₁ : (w.opened s x).Calm := by
    have hc := hw₁.calm hcalm
    intro t y hy
    rw [hopen, Store.get?_modify] at hy
    split at hy
    · obtain ⟨z, hz, rfl⟩ : ∃ z, w₁.signals.get? t = some z ∧ { z with cache := none } = y := by
        simpa using hy
      exact hc t z hz
    · exact hc t y hy
  obtain ⟨v, w₃, first', hv, hd, hsub⟩ := hnext (pendingValue x) (w.opened s x)
    (by rw [hopen]; exact hw₁.scope.trans hscope) hcalm₁
    (by rw [hopen]; exact hw₁.probes.trans hprobes)
    (by rw [hopen]; exact hw₁.observers.trans ho) hlive₁
  rw [hopen] at hd
  have hafter := hd.around hx₁ hd₁ v
  refine ⟨_, _, by rw [hrun, run_bind_ok hv, run_modifySignal], hw₁.trans hafter, fun t ht => ?_,
    hafter.dirty hx₁ hd₁⟩
  exact (List.mem_append.1 ht).elim (hsub₁ t) (hsub t)

end World

theorem Act.Drafts.write {scope : List (String × Nat) × Store Held} {states : List Nat} {s : Nat}
    {next : Value → Act Value} (hs : s ∈ states) (hnext : ∀ v, Drafts scope states (next v)) :
    Drafts scope states (write s next) := by
  intro w hscope hcalm hprobes ho hlive
  obtain ⟨w', first, hrun, hd, hsub, _⟩ :=
    World.run_write_dirty hs hnext hscope hcalm hprobes ho hlive
  exact ⟨_, w', first, hrun, hd, hsub⟩

end FineGrain
