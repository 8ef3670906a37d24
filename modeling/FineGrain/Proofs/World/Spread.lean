import FineGrain.Proofs.World.Looking
/-!
How a change spreads: the subscribers of a signal are sorted out, a memo computes its value anew, and
a commit writes the pending value once.
-/

namespace FineGrain

open Act

namespace World

variable {w : World} {host : Host}

/-- When an effect runs, if there is one. -/
def timing? (w : World) (e : NodeId) : Option Timing := (w.effects.get? e).map (·.timing)

/-- The world in which some deferred effects have come to wait. -/
def awaiting (w : World) (waiting : List NodeId) : World :=
  if waiting.isEmpty then w
  else
    { w with
      graph := { w.graph with
        pending := waiting.foldl (fun l e => Graph.addOnce e l) w.graph.pending
        flushQueued := true }
      tasks := w.tasks ++ if w.graph.flushQueued then [] else [.flush] }

@[simp] theorem effects_awaiting (waiting : List NodeId) :
    (w.awaiting waiting).effects = w.effects := by
  unfold awaiting
  split <;> rfl

theorem run_schedule (e : NodeId) :
    w.run (schedule e) = (.ok ⟨⟩, w.awaiting [e]) := by
  cases h : w.graph.flushQueued <;>
    simp [schedule, run_bind, Graph.schedule, awaiting, h]

theorem awaiting_cons (e : NodeId) (rest : List NodeId) :
    (w.awaiting [e]).awaiting rest = w.awaiting (e :: rest) := by
  cases rest <;> simp [awaiting]

theorem run_sortOut (l : List NodeId) :
    w.run (sortOut l) = (.ok (l.filter fun e => w.timing? e == some .render),
      w.awaiting (l.filter fun e => w.timing? e == some .deferred)) := by
  induction l generalizing w with
  | nil => rfl
  | cons e rest ih =>
    cases he : w.effects.get? e with
    | none =>
      have ht : w.timing? e = none := by simp [timing?, he]
      simp [sortOut, run_bind, he, ih, ht]
    | some x =>
      cases hx : x.timing with
      | render =>
        have ht : w.timing? e = some .render := by simp [timing?, he, hx]
        simp [sortOut, run_bind, run_map, he, hx, ih, ht]
      | deferred =>
        have ht : w.timing? e = some .deferred := by simp [timing?, he, hx]
        have hrest : (w.awaiting [e]).timing? = w.timing? := by
          funext k
          simp [timing?]
        simp [sortOut, run_bind, he, hx, run_schedule, ih, ht, hrest, awaiting_cons]

theorem run_notify (s : NodeId) :
    w.run (notify host s) =
      (w.awaiting ((w.graph.subscribers s).filter fun e => w.timing? e == some .deferred)).run
        (runEffects host
          (((w.graph.subscribers s).filter fun e => w.timing? e == some .render).mergeSort
            (· ≤ ·))) := by
  simp [notify, run_bind, run_sortOut]

theorem run_runEffects_cons {e : NodeId} {rest : List NodeId} {w' : World}
    (h : w.run (runEffect host e) = (.ok ⟨⟩, w')) :
    w.run (runEffects host (e :: rest)) = w'.run (runEffects host rest) := by
  rw [runEffects, run_bind_ok h]

theorem run_storeComputed {m : Nat} {x : Memo} {next : Cached} (hm : w.memos.get? m = some x)
    (hx : x.bound = true → x.readers = 0) :
    w.run (storeComputed m next) =
      (.ok ⟨⟩, { w with memos := w.memos.modify m fun x => { x with cache := some next } }) := by
  cases hb : x.bound <;> simp_all [storeComputed, run_bind, modifyMemo]

theorem run_compute_memo {m : Nat} {x : Memo} {next : Cached} {w' : World}
    (hm : w.memos.get? m = some x) (hp : w.run (produce host x.factory) = (.ok next, w'))
    (hsame : w'.memos = w.memos) (hx : x.bound = true → x.readers = 0) :
    w.run (compute host (.memo m)) =
      (.ok ⟨⟩, { w' with memos := w'.memos.modify m fun x => { x with cache := some next } }) := by
  have hm' : w'.memos.get? m = some x := hsame ▸ hm
  simp [compute, run_bind, hm, hp, run_storeComputed hm' hx]

theorem giveUp_signal {s : Nat} {x : Signal} (hs : w.signals.get? s = some x)
    (hc : 1 < x.clones) :
    w.giveUp [.signal s] =
      { w with signals := w.signals.put s { x with clones := x.clones - 1 } } := by
  have hd : w.dropSignal s =
      { w with signals := w.signals.put s { x with clones := x.clones - 1 } } := by
    simp only [dropSignal, hs]
    rw [if_neg (by omega)]
  have hn (n : Nat) (u : World) : giveUpSteps n [] u = u := by cases n <;> rfl
  simp [giveUp, giveUpSteps, dropOne, hd, hn]

/-- The world in which the pending value of a state is written and not yet spread. -/
def committing (w : World) (s : Nat) (v : Value) : World :=
  { w with
    signals := w.signals.modify s fun x => { x with cache := none, dirty := false, value := v } }

theorem get?_committing (s t : Nat) (v : Value) : (w.committing s v).signals.get? t =
    if t = s then (w.signals.get? t).map fun x => { x with cache := none, dirty := false, value := v }
    else w.signals.get? t :=
  Store.get?_modify ..

theorem Calm.committing (hc : w.Calm) (s : Nat) (v : Value) : (w.committing s v).Calm := by
  intro t x hx
  rw [get?_committing] at hx
  split at hx
  · obtain ⟨y, hy, rfl⟩ := Option.map_eq_some_iff.1 hx
    exact hc t y hy
  · exact hc t x hx

theorem run_commit {s : Nat} {x : Signal} {v : Value} {w' : World}
    (hs : w.signals.get? s = some x) (hv : x.cache = some v) (hw : x.writing = false)
    (hr : x.readers = 0) (hc : 1 < x.clones)
    (hn : (w.committing s v).run (notify host s) = (.ok ⟨⟩, w'))
    (hsame : w'.signals = (w.committing s v).signals) :
    w.run (commit host s) = (.ok ⟨⟩,
      { w' with
        signals := w'.signals.put s
          { x with cache := none, dirty := false, value := v, clones := x.clones - 1 } }) := by
  have hs' : w'.signals.get? s = some { x with cache := none, dirty := false, value := v } := by
    rw [hsame, committing, Store.get?_modify]
    simp [hs]
  have hset : { w with
      signals := w.signals.modify s fun x => { x with cache := none, dirty := false } }.run
        (setSignal host s v) = (.ok ⟨⟩, w') := by
    rw [← hn]
    simp [setSignal, requireUnborrowed, run_bind, Store.get?_modify, Store.modify_modify,
      committing, hs, hw, hr, Function.comp_def]
  simp [commit, run_bind, hs, hv, hset, Act.giveUp, giveUp_signal hs' hc]

end World

end FineGrain
