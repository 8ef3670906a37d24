import FineGrain.Proofs.World.Spread
/-!
Pure factories. Such a factory answers at once, or reads a state or a memo and goes on with what it
has read; what it answers and what it subscribes to depend on the values it reads alone.
-/

namespace FineGrain

open Act

/-- What a factory can read. -/
inductive Source where
  | state (signal : Nat)
  | memo (memo : Nat)
deriving DecidableEq, Repr

def Source.get : Source → Act Value
  | .state s => do
      track s
      Act.read s
  | .memo m => do
      trackMemo m
      cachedValue m

/-- A pure factory. -/
inductive Reads where
  | answer (v : Value)
  | get (source : Source) (next : Value → Reads)

namespace Reads

/-- What a factory does when it runs. -/
def act : Reads → Act Value
  | answer v => return v
  | get source next => do
      let v ← source.get
      (next v).act

/-- What a factory answers when its sources have the given values. -/
def eval (env : Source → Value) : Reads → Value
  | answer v => v
  | get source next => (next (env source)).eval env

/-- What a factory reads when its sources have the given values. -/
def visited (env : Source → Value) : Reads → List Source
  | answer _ => []
  | get source next => source :: (next (env source)).visited env

variable {env env' : Source → Value}

theorem visited_congr {r : Reads} (h : ∀ x ∈ r.visited env, env' x = env x) :
    r.visited env' = r.visited env := by
  induction r with
  | answer v => rfl
  | get source next ih =>
    simp only [visited, List.mem_cons, forall_eq_or_imp] at h ⊢
    rw [h.1, ih _ h.2]

theorem eval_congr {r : Reads} (h : ∀ x ∈ r.visited env, env' x = env x) :
    r.eval env' = r.eval env := by
  induction r with
  | answer v => rfl
  | get source next ih =>
    simp only [visited, List.mem_cons, forall_eq_or_imp] at h
    simp only [eval]
    rw [h.1, ih _ h.2]

end Reads

namespace World

/-- The value that a read answers. -/
def look (w : World) : Source → Value
  | .state s => ((w.signals.get? s).getD default).value
  | .memo m =>
      match ((w.memos.get? m).getD default).cache with
      | some (.value v) => v
      | _ => .null

/-- The states that a read subscribes to. -/
def feeds (w : World) : Source → List Nat
  | .state s => [s]
  | .memo m => w.sources ((w.memos.get? m).getD default).dependencies

/-- The states that a factory subscribes to. -/
def tracked (w : World) (r : Reads) : List Nat := (r.visited w.look).flatMap w.feeds

variable {w : World}

theorem run_cachedValue (m : Nat) : w.run (cachedValue m) = (.ok (w.look (.memo m)), w) := by
  simp only [cachedValue, memo, run_bind, run_get, run_pure, look]
  split <;> simp_all

theorem run_source (hc : w.Calm) (hp : w.probes = .empty) (source : Source) :
    w.run source.get =
      (.ok (w.look source),
        { w with graph := (w.feeds source).foldl Graph.track w.graph }) := by
  cases source with
  | state s =>
    have hc' : Calm { w with graph := w.graph.track s } := hc
    simp only [Source.get, run_bind, run_track, run_read _ (hc'.not_writing s), look, feeds]
    rfl
  | memo m =>
    simp only [Source.get, trackMemo, memo, run_bind, run_get, run_pure, run_trackAll hc hp,
      run_cachedValue, feeds]
    rfl

theorem run_reads (hc : w.Calm) (hp : w.probes = .empty) (r : Reads) :
    w.run r.act =
      (.ok (r.eval w.look), { w with graph := (w.tracked r).foldl Graph.track w.graph }) := by
  have general (g : Graph) : { w with graph := g }.run r.act =
      (.ok (r.eval w.look), { w with graph := (w.tracked r).foldl Graph.track g }) := by
    induction r generalizing g with
    | answer v => rfl
    | get source next ih =>
      have hs := run_source (w := { w with graph := g }) hc hp source
      have hlook : ({ w with graph := g } : World).look source = w.look source := by
        cases source <;> rfl
      have hfeeds : ({ w with graph := g } : World).feeds source = w.feeds source := by
        cases source with
        | state s => rfl
        | memo m => exact sources_congr (w := w) (u := { w with graph := g }) rfl rfl _
      rw [Reads.act, run_bind_ok hs, hlook, hfeeds, ih]
      simp [tracked, Reads.visited, Reads.eval]
  exact general w.graph

end World

end FineGrain
