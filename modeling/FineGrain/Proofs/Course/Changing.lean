import FineGrain.Proofs.Course.Basic
/-!
Calls that change plain signals. As long as only deferred effects are subscribed to what they write,
nothing runs: the effects come to wait for one flush, each once, in the order in which the changes have
reached them.
-/

namespace FineGrain

open Act

/-- A call that changes a plain signal. -/
inductive Change where
  | set (signal : Nat) (v : Value)
  | update (signal : Nat) (body : Body)

/-- Under the given names, an act only looks even while a signal is being written, since it does not look
at that signal. -/
def Act.LooksBeside {α : Type} (scope : List (String × Nat) × Store Held) (s : Nat) (a : Act α) : Prop :=
  ∀ w : World, w.scope = scope →
    (∀ t x, w.signals.get? t = some x → x.writing = true → t = s) → w.probes = .empty →
    ∃ v w', w.run a = (.ok v, w') ∧ w.Looked w'

namespace Change

variable {host : Host}

def signal : Change → Nat
  | .set s _ | .update s _ => s

def perform (host : Host) : Change → Act Unit
  | .set s v => setSignal host s v
  | .update s body => updateSignal host s fun v => host.call body [v]

/-- A call writes a value: the one it is given, or what its updater makes of the value before. -/
def Writes (host : Host) (w : World) : Change → Value → Prop
  | .set _ v, next => next = v
  | .update s body, next =>
      ({ w with signals := w.signals.modify s fun x => { x with writing := true } }.run
        (host.call body [w.value s])).1 = .ok next

/-- The updater of a call only looks. -/
def Looking (host : Host) (scope : List (String × Nat) × Store Held) : Change → Prop
  | .set _ _ => True
  | .update s body => ∀ v, LooksBeside scope s (host.call body [v])

end Change

/-- Calls are made one after another, and each of them writes a value. -/
inductive Changes (host : Host) : World → List Change → List (Nat × Value) → World → Prop
  | done {w} : Changes host w [] [] w
  | step {w u w' change rest v writes} : change.Writes host w v →
      w.run (change.perform host) = (.ok ⟨⟩, u) → Changes host u rest writes w' →
      Changes host w (change :: rest) ((change.signal, v) :: writes) w'

theorem Changes.run {host : Host} {w w' : World} {changes : List Change} {writes : List (Nat × Value)}
    (h : Changes host w changes writes w') :
    w.run (changes.forM (Change.perform host)) = (.ok ⟨⟩, w') := by
  induction h with
  | done => rfl
  | step _ hrun _ ih => exact (World.run_bind_ok hrun _).trans ih

/-- What a signal holds after some writes. -/
def lastValue (writes : List (Nat × Value)) (s : Nat) (v : Value) : Value :=
  writes.foldl (fun v write => if write.1 = s then write.2 else v) v

namespace World

variable {host : Host} {w w' w'' : World} {s : Nat} {v : Value} {l l' : List NodeId}
  {writes writes' : List (Nat × Value)}

def Unborrowed (w : World) : Prop :=
  ∀ s x, w.signals.get? s = some x → x.readers = 0 ∧ x.writing = false

/-- The effects that a change of a signal concerns, in the order in which they have subscribed. -/
def listeners (w : World) (s : Nat) : List NodeId :=
  (w.graph.subscribers s).filter fun e => w.effects.contains e

/-- The effects that a change of a signal concerns are deferred. -/
def Deferring (w : World) (s : Nat) : Prop :=
  ∀ e ∈ w.listeners s, w.timing? e = some .deferred

/-- A world after some writes, in which some effects have come to wait. -/
structure Changed (w w' : World) (l : List NodeId) (writes : List (Nat × Value)) : Prop where
  rest : w' =
    ({ w with log := w'.log, refs := w'.refs, signals := w'.signals } : World).awaiting l
  signals : ∀ s, w'.signals.get? s =
    (w.signals.get? s).map fun x => { x with value := lastValue writes s x.value }

theorem awaiting_append (l l' : List NodeId) : (w.awaiting l).awaiting l' = w.awaiting (l ++ l') := by
  induction l generalizing w with
  | nil => rfl
  | cons e rest ih => rw [← awaiting_cons, ih, awaiting_cons, List.cons_append]

theorem awaiting_aside (l : List NodeId) (log : List String) (refs : Store Ref) (signals : Store Signal) :
    { w.awaiting l with log := log, refs := refs, signals := signals } =
      ({ w with log := log, refs := refs, signals := signals } : World).awaiting l := by
  unfold awaiting
  split <;> rfl

theorem pending_awaiting {before : List NodeId} (h : w.graph.pending = before.eraseDups)
    (l : List NodeId) : (w.awaiting l).graph.pending = (before ++ l).eraseDups := by
  induction l generalizing w before with
  | nil => simpa [awaiting] using h
  | cons e rest ih =>
    have hone : (w.awaiting [e]).graph.pending = (before ++ [e]).eraseDups := by
      rw [← Graph.addOnce_eraseDups, ← h]
      rfl
    rw [← awaiting_cons, ih hone, List.append_assoc, List.singleton_append]

theorem nodup_pending_awaiting (h : w.graph.pending.Nodup) (l : List NodeId) :
    (w.awaiting l).graph.pending.Nodup := by
  induction l generalizing w with
  | nil => exact h
  | cons e rest ih =>
    rw [← awaiting_cons]
    exact ih (Graph.nodup_addOnce h)

theorem flushQueued_awaiting (h : w.graph.flushQueued = false) (l : List NodeId) :
    (w.awaiting l).graph.flushQueued = !l.isEmpty := by
  unfold awaiting
  split <;> simp_all

theorem tasks_awaiting_unqueued (h : w.graph.flushQueued = false) (l : List NodeId) :
    (w.awaiting l).tasks = w.tasks ++ if l.isEmpty then [] else [.flush] := by
  unfold awaiting
  split <;> simp_all

theorem log_awaiting (l : List NodeId) : (w.awaiting l).log = w.log := by
  unfold awaiting
  split <;> rfl

theorem refs_awaiting (l : List NodeId) : (w.awaiting l).refs = w.refs := by
  unfold awaiting
  split <;> rfl

theorem signals_awaiting (l : List NodeId) : (w.awaiting l).signals = w.signals := by
  unfold awaiting
  split <;> rfl

theorem nodes_awaiting (l : List NodeId) : (w.awaiting l).graph.nodes = w.graph.nodes := by
  unfold awaiting
  split <;> rfl

theorem observers_awaiting (l : List NodeId) :
    (w.awaiting l).graph.observers = w.graph.observers := by
  unfold awaiting
  split <;> rfl

theorem run_notify_deferring (h : w.Deferring s) :
    w.run (notify host s) = (.ok ⟨⟩, w.awaiting (w.listeners s)) := by
  have htiming (e : NodeId) (he : e ∈ w.graph.subscribers s) :
      (w.timing? e == some .deferred) = w.effects.contains e ∧
        (w.timing? e == some .render) = false := by
    cases hx : w.effects.contains e with
    | false =>
      have hnone : w.timing? e = none := by simpa [Store.contains, timing?] using hx
      simp [hnone]
    | true => simp [h e (List.mem_filter.2 ⟨he, hx⟩)]
  have hdeferred : (w.graph.subscribers s).filter (fun e => w.timing? e == some .deferred) =
      w.listeners s := List.filter_congr fun e he => (htiming e he).1
  have hrender : (w.graph.subscribers s).filter (fun e => w.timing? e == some .render) = [] :=
    List.filter_eq_nil_iff.2 fun e he => by simp [(htiming e he).2]
  rw [run_notify, hdeferred, hrender, List.mergeSort_nil]
  rfl

theorem Changed.refl (w : World) : w.Changed w [] [] where
  rest := rfl
  signals s := by simp [lastValue]

theorem Changed.trans (h : w.Changed w' l writes) (h' : w'.Changed w'' l' writes') :
    w.Changed w'' (l ++ l') (writes ++ writes') where
  rest := by
    have hrest := h'.rest
    rw [h.rest, awaiting_aside, awaiting_append] at hrest
    exact hrest
  signals s := by
    rw [h'.signals, h.signals, Option.map_map]
    simp [lastValue, Function.comp_def]

theorem Changed.effects (h : w.Changed w' l writes) : w'.effects = w.effects := by
  rw [h.rest, effects_awaiting]

theorem Changed.nodes (h : w.Changed w' l writes) : w'.graph.nodes = w.graph.nodes := by
  rw [h.rest, nodes_awaiting]

theorem Changed.observers (h : w.Changed w' l writes) : w'.graph.observers = w.graph.observers := by
  rw [h.rest, observers_awaiting]

theorem Changed.scope (h : w.Changed w' l writes) : w'.scope = w.scope := by
  rw [h.rest]
  unfold awaiting
  split <;> rfl

theorem Changed.probes (h : w.Changed w' l writes) : w'.probes = w.probes := by
  rw [h.rest]
  unfold awaiting
  split <;> rfl

theorem Changed.unborrowed (h : w.Changed w' l writes) (hw : w.Unborrowed) : w'.Unborrowed := by
  intro s x hx
  rw [h.signals] at hx
  obtain ⟨y, hy, rfl⟩ := Option.map_eq_some_iff.1 hx
  exact hw s y hy

theorem Changed.listeners (h : w.Changed w' l writes) (s : Nat) : w'.listeners s = w.listeners s := by
  simp only [World.listeners, Graph.subscribers, h.nodes, h.effects]

theorem Changed.deferring (h : w.Changed w' l writes) (hs : w.Deferring s) : w'.Deferring s := by
  intro e he
  rw [h.listeners] at he
  rw [timing?, h.effects]
  exact hs e he

theorem Changed.value (h : w.Changed w' l writes) (hs : (w.signals.get? s).isSome) :
    w'.value s = lastValue writes s (w.value s) := by
  obtain ⟨x, hx⟩ := Option.isSome_iff_exists.1 hs
  simp [World.value, h.signals, hx]

theorem changed_notify (host : Host) {u : World} (hd : w.Deferring s)
    (hu : u = { w with log := u.log, refs := u.refs, signals := u.signals })
    (hsignals : ∀ t, u.signals.get? t =
      (w.signals.get? t).map fun x => { x with value := if s = t then v else x.value }) :
    u.run (notify host s) = (.ok ⟨⟩, u.awaiting (w.listeners s)) ∧
      w.Changed (u.awaiting (w.listeners s)) (w.listeners s) [(s, v)] := by
  have hlisteners : u.listeners s = w.listeners s := by rw [hu]; rfl
  have hdeferring : u.Deferring s := by
    intro e he
    have htiming : u.timing? e = w.timing? e := by rw [hu]; rfl
    exact htiming.trans (hd e (hlisteners ▸ he))
  refine ⟨hlisteners ▸ run_notify_deferring hdeferring, ?_, fun t => ?_⟩
  · rw [log_awaiting, refs_awaiting, signals_awaiting]
    exact congrArg (World.awaiting · _) hu
  · rw [signals_awaiting, hsignals]
    rfl

theorem Unborrowed.writable (h : w.Unborrowed) (s : Nat) : w.Writable s := by
  unfold Writable
  cases hx : w.signals.get? s with
  | none => exact ⟨rfl, rfl⟩
  | some x => exact (h s x hx).symm

theorem run_requireUnborrowed (h : w.Writable s) : w.run (requireUnborrowed s) = (.ok ⟨⟩, w) := by
  simp [requireUnborrowed, run_bind, h.1, h.2]

theorem get?_written (f : Signal → Signal) (hf : ∀ x, w.signals.get? s = some x →
    f x = { x with value := v }) (t : Nat) : (w.signals.modify s f).get? t =
      (w.signals.get? t).map fun x => { x with value := if s = t then v else x.value } := by
  rw [Store.get?_modify]
  by_cases ht : t = s
  · subst ht
    rw [if_pos rfl]
    cases hx : w.signals.get? t with
    | none => rfl
    | some x => simp [hf x hx]
  · rw [if_neg ht]
    cases w.signals.get? t <;> simp [Ne.symm ht]

theorem exists_changed {change : Change} (hw : w.Unborrowed) (hp : w.probes = .empty)
    (ho : w.graph.observers = []) (hd : w.Deferring change.signal)
    (hlooks : change.Looking host w.scope) : ∃ v w', change.Writes host w v ∧
      w.run (change.perform host) = (.ok ⟨⟩, w') ∧
      w.Changed w' (w.listeners change.signal) [(change.signal, v)] := by
  have hrequire (s : Nat) := run_requireUnborrowed (hw.writable s)
  cases change with
  | set s v =>
    obtain ⟨hrun, hchanged⟩ := changed_notify host (v := v) hd
      (u := { w with signals := w.signals.modify s fun x => { x with value := v } }) rfl
      (get?_written _ fun _ _ => rfl)
    refine ⟨v, _, rfl, ?_, hchanged⟩
    rw [Change.perform, setSignal, run_bind_ok (hrequire s)]
    exact hrun
  | update s body =>
    -- An updater works while its signal is marked as being written, so the looking is done in that
    -- world.
    let before : World := { w with signals := w.signals.modify s fun x => { x with writing := true } }
    have hbefore : ∀ t x, before.signals.get? t = some x → x.writing = true → t = s := by
      intro t x hx hwriting
      obtain ⟨y, hy, rfl⟩ := Store.of_modify hx
      refine Decidable.of_not_not fun ht => ?_
      rw [if_neg ht, (hw t y hy).2] at hwriting
      cases hwriting
    obtain ⟨v, _, hv, lines, refs, sources, rfl⟩ := hlooks (w.value s) before rfl hbefore hp
    rw [Graph.trackAll_unobserved (by simp [before, Graph.observer?, ho])] at hv
    obtain ⟨hrun, hchanged⟩ := changed_notify host (v := v) hd
      (u := { w with
        log := w.log ++ lines
        refs := refs
        signals := w.signals.modify s fun x => { x with value := v, writing := false } }) rfl
      (get?_written _ fun x hx => by simp [(hw s x hx).2])
    refine ⟨v, _, congrArg Prod.fst hv, ?_, hchanged⟩
    have hread : w.run (Act.read s) = (.ok (w.value s), w) := run_read w (hw.writable s).1
    rw [← hrun, Change.perform, updateSignal, run_bind_ok (hrequire s), run_bind_ok hread,
      run_bind_ok (run_modifySignal _ s _), run_bind_ok hv, run_bind_ok (run_modifySignal _ s _)]
    simp only [before, Store.modify_modify]
    rfl

theorem exists_changes {changes : List Change} (hw : w.Unborrowed) (hp : w.probes = .empty)
    (ho : w.graph.observers = []) (hd : ∀ change ∈ changes, w.Deferring change.signal)
    (hlooks : ∀ change ∈ changes, change.Looking host w.scope) : ∃ writes w',
      Changes host w changes writes w' ∧
      w.Changed w' (changes.flatMap fun change => w.listeners change.signal) writes := by
  induction changes generalizing w with
  | nil => exact ⟨[], w, .done, .refl w⟩
  | cons change rest ih =>
    obtain ⟨v, u, hv, hrun, hchanged⟩ := exists_changed hw hp ho (hd _ List.mem_cons_self)
      (hlooks _ List.mem_cons_self)
    obtain ⟨writes, w', hchanges, hrest⟩ := ih (hchanged.unborrowed hw) (hchanged.probes.trans hp)
      (hchanged.observers.trans ho)
      (fun c hc => hchanged.deferring (hd c (List.mem_cons_of_mem _ hc)))
      (fun c hc => hchanged.scope ▸ hlooks c (List.mem_cons_of_mem _ hc))
    refine ⟨_, w', .step hv hrun hchanges, ?_⟩
    have hall := hchanged.trans hrest
    simp only [hchanged.listeners] at hall
    exact hall

end World

end FineGrain
