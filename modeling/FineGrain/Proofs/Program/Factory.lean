import FineGrain.Program.Eval
import FineGrain.Proofs.Memo.Family
/-!
Expressions that are pure factories: constants, tracked reads of what goes by a name, arithmetic,
branches, and lines recorded on the way.
-/

namespace FineGrain

open Act

namespace Store

variable {α : Type}

theorem putEntry_map {f : α → α} {key : Nat} {a : α} {l : List (Nat × α)}
    (hl : (l.map (·.1)).Nodup) (h : lookup key l = some a) :
    putEntry key a (l.map fun (k, b) => if k == key then (k, f b) else (k, b)) = l := by
  induction l with
  | nil => simp [lookup] at h
  | cons e rest ih =>
    obtain ⟨k, b⟩ := e
    have hnodup := List.nodup_cons.1 hl
    by_cases hk : k = key
    · subst hk
      obtain rfl : b = a := by simpa [lookup] using h
      have hrest : rest.map (fun e => if e.1 == k then (e.1, f e.2) else (e.1, e.2)) = rest := by
        rw [List.map_congr_left (g := id), List.map_id]
        intro e he
        have hne : e.1 ≠ k := by
          rintro rfl
          exact hnodup.1 (List.mem_map.2 ⟨e, he, rfl⟩)
        simp [hne]
      simpa [putEntry] using hrest
    · simp only [lookup, hk, if_false] at h
      have hmap := ih hnodup.2 h
      simpa [putEntry, hk] using hmap

theorem put_modify {s : Store α} {f : α → α} {key : Nat} {a : α}
    (hs : (s.entries.map (·.1)).Nodup) (h : s.get? key = some a) :
    (s.modify key f).put key a = s := by
  obtain ⟨entries⟩ := s
  exact congrArg Store.mk (putEntry_map hs h)

end Store

structure Bound (scope : List (String × Nat) × Store Held) (name : String) (handle : Handle) :
    Prop where
  keys : (scope.2.entries.map (·.1)).Nodup
  held : ∃ number holders, scope.1.lookup name = some number ∧
    scope.2.get? number = some ⟨handle, holders⟩ ∧ 0 < holders

namespace World

variable {w w' : World} {host : Host} {eval : Expr → Act Value} {name word : String}
  {op : Operation} {handle : Handle} {v : Value}

theorem run_operate {act : Act Value} (hb : Bound w.scope name handle)
    (hop : operation? host eval handle op = some act)
    (hact : ∀ handles, { w with handles := handles }.run act =
      (.ok v, { w' with handles := handles }))
    (hsame : w'.handles = w.handles) :
    w.run (operate host eval name word op) = (.ok v, w') := by
  obtain ⟨number, holders, hnumber, hheld, hpos⟩ := hb.held
  have hput := Store.put_modify (f := fun x : Held => { x with holders := x.holders + 1 })
    hb.keys hheld
  have hnumber' : w.names.lookup name = some number := hnumber
  have hheld' : w.handles.get? number = some ⟨handle, holders⟩ := hheld
  have hput' : (w.handles.modify number fun x => { x with holders := x.holders + 1 }).put number
      ⟨handle, holders⟩ = w.handles := hput
  simp only [operate, handle?, run_bind, run_get, run_pure, hnumber', hheld', Option.bind_eq_bind,
    Option.bind_some, Option.pure_def, hop, hold, run_modify, hact, letGo, Store.get?_modify,
    if_true, Option.map_some]
  have hle : ¬ holders + 1 ≤ 1 := by omega
  have hw' : { w' with handles := w.handles } = w' := by rw [← hsame]
  simp [hle, hput', hw']

end World

def Source.handle : Source → Handle
  | .state s => .state s
  | .memo m => .memo m

namespace Reads

/-- Go on with what a factory answers. -/
def bind : Reads → (Value → Reads) → Reads
  | answer v, f => f v
  | get source next, f => get source fun v => (next v).bind f

theorem act_bind (r : Reads) (f : Value → Reads) :
    (r.bind f).act = r.act >>= fun v => (f v).act := by
  induction r with
  | answer v => simp [bind, act]
  | get source next ih => simp [bind, act, ih]

end Reads

namespace Act

variable {scope : List (String × Nat) × Store Held} {lines : List String} {r : Reads}
  {a : Act Value} {name word : String} {arguments : List Value} {n : Nat}

theorem ReadsAs.bind {f : Value → Act Value} {next : Value → Reads}
    (ha : ReadsAs scope lines r a) (hf : ∀ v, ReadsAs scope [] (next v) (f v)) :
    ReadsAs scope lines (r.bind next) (a >>= f) := by
  intro w hs hc hp
  let u : World := { w with log := w.log ++ lines }
  have hu := World.run_reads (w := u) hc hp r
  have hnext := hf (r.eval u.look) { u with graph := (u.tracked r).foldl Graph.track u.graph }
    hs hc hp
  rw [World.run_bind, ha w hs hc hp, Reads.act_bind, World.run_bind, hu]
  simpa using hnext

theorem ReadsAs.looks (ha : ReadsAs scope lines r a) : Looks scope a := by
  intro w hs hc hp
  have hread := World.run_reads (w := { w with log := w.log ++ lines }) hc hp r
  exact ⟨_, _, (ha w hs hc hp).trans hread, lines, w.refs, _, rfl⟩

theorem readsAs_pure (v : Value) : ReadsAs scope [] (.answer v) (pure v) := by
  intro w _ _ _
  simp [Reads.act]

theorem readsAs_value (v : Value) :
    ReadsAs scope [] (.answer v) ((Host.ofDepth (n + 1)).call (.value v) arguments) :=
  readsAs_pure v

theorem readsAs_get {handle : Handle} {source : Source} (hb : Bound scope name handle)
    (hget : ∀ host eval, operation? host eval handle .get = some source.get) :
    ReadsAs scope [] (.get source .answer)
      ((Host.ofDepth (n + 1)).call (.on name word .get) arguments) := by
  intro w hs hc hp
  subst hs
  have hrun (handles : Store Held) : { w with handles := handles }.run source.get =
      (.ok (w.look source),
        { w with graph := (w.feeds source).foldl Graph.track w.graph, handles := handles }) := by
    have hfeeds : ({ w with handles := handles } : World).feeds source = w.feeds source := by
      cases source with
      | state s => rfl
      | memo m =>
        exact World.sources_congr (w := w) (u := { w with handles := handles }) rfl rfl _
    have hlook : ({ w with handles := handles } : World).look source = w.look source := by
      cases source <;> rfl
    have h := World.run_source (w := { w with handles := handles }) hc hp source
    rwa [hfeeds, hlook] at h
  have hact : w.run (operate (Host.ofDepth n) (fun e => (Host.ofDepth n).call e arguments) name
      word .get) = (.ok (w.look source),
        { w with graph := (w.feeds source).foldl Graph.track w.graph }) :=
    World.run_operate hb (hget _ _) hrun rfl
  have hread := World.run_reads (w := w) hc hp (.get source .answer)
  have htracked : w.tracked (.get source .answer) = w.feeds source := by
    simp [World.tracked, Reads.visited]
  rw [htracked] at hread
  simp only [List.append_nil]
  exact hact.trans hread.symm

theorem readsAs_source {source : Source} (hb : Bound scope name source.handle) :
    ReadsAs scope [] (.get source .answer)
      ((Host.ofDepth (n + 1)).call (.on name word .get) arguments) :=
  readsAs_get hb fun _ _ => by cases source <;> rfl

theorem readsAs_arithmetic {op : Arithmetic} {x y : Expr} {rx ry : Reads}
    (hx : ReadsAs scope lines rx ((Host.ofDepth n).call x arguments))
    (hy : ReadsAs scope [] ry ((Host.ofDepth n).call y arguments)) :
    ReadsAs scope lines
      (rx.bind fun a => ry.bind fun b => .answer (.wrap (arithmetic op a.toInt b.toInt)))
      ((Host.ofDepth (n + 1)).call (.arithmetic op x y) arguments) :=
  hx.bind fun _ => hy.bind fun _ => readsAs_pure _

theorem readsAs_logging {line : String} {e : Expr} {r : Reads}
    (he : ReadsAs scope [] r ((Host.ofDepth (n + 2)).call e arguments)) :
    ReadsAs scope [line] r
      ((Host.ofDepth (n + 3)).call (.sequence [.log [.value (.string line)], e]) arguments) := by
  intro w hs hc hp
  have hlog : w.run ((Host.ofDepth (n + 2)).call (.log [.value (.string line)]) arguments) =
      (.ok .null, { w with log := w.log ++ [line] }) := by
    simp [Host.ofDepth, evalStep, World.run_map, Act.log, Value.display]
  have hrun := he { w with log := w.log ++ [line] } hs hc hp
  have hread := World.run_reads (w := { w with log := w.log ++ [line] }) hc hp r
  simp only [List.append_nil] at hrun
  rw [hread] at hrun ⊢
  have hcall (e : Expr) : (Host.ofDepth (n + 3)).call e arguments =
      evalStep (Host.ofDepth (n + 2)) arguments e := rfl
  rw [hcall]
  simp [evalStep, World.run_bind, hlog, hrun]

end Act

end FineGrain
