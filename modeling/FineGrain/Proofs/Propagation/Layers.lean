import FineGrain.Proofs.Propagation.Execution
/-!
Code in layers. Signals have ranks, and the code of an effect writes only signals that are ranked above
every signal it ever reads tracked. What it reads, how often, and what it writes in which order, may
depend on everything it finds.
-/

namespace FineGrain

open Act

/-- Signals in finitely many layers. For each effect, the signals it may read tracked, all of which are
ranked below those it may write.

* `depth`: how deep the code of an effect nests by itself -/
structure Layers where
  levels : Nat
  rank : Nat → Nat
  reads : NodeId → Nat → Prop
  writes : NodeId → Nat → Prop
  depth : Nat
  bounded : ∀ s, rank s < levels
  above : ∀ e r s, reads e r → writes e s → rank r < rank s

/-- What some code may do: read the signals that are not `busy`, read those in `tracked` for the effect
that observes, and write those in `written`. -/
structure Licence where
  busy : Nat → Prop
  tracked : Nat → Prop
  written : Nat → Prop

namespace Licence

/-- The same without writing. -/
def silent (l : Licence) : Licence := { l with written := fun _ => False }

/-- The same where nobody observes. -/
def unobserved (l : Licence) : Licence := { l with tracked := fun _ => True }

/-- What may be done while a signal is changed in place. -/
def within (l : Licence) (s : Nat) : Licence := { l.silent with busy := (· = s) }

end Licence

namespace Layers

/-- What the code of an effect may do. -/
def licence (L : Layers) (e : NodeId) : Licence := ⟨fun _ => False, L.reads e, L.writes e⟩

/-- How deep a write may nest: so many runs of effects, one inside the other. -/
def cost (L : Layers) (s : Nat) : Nat := (L.levels - L.rank s) * L.depth

theorem depth_le_cost (L : Layers) (s : Nat) : L.depth ≤ L.cost s :=
  Nat.le_mul_of_pos_left _ (Nat.sub_pos_of_lt (L.bounded s))

/-- What a run writes nests less deep than the write that has caused it. -/
theorem cost_add_depth_le (L : Layers) {r s : Nat} (h : L.rank r < L.rank s) :
    L.cost s + L.depth ≤ L.cost r := by
  have hs := L.bounded s
  calc
    L.cost s + L.depth = (L.levels - L.rank s + 1) * L.depth := by rw [cost, Nat.add_mul, Nat.one_mul]
    _ ≤ L.cost r := Nat.mul_le_mul_right _ (by omega)

theorem cost_le (L : Layers) (s : Nat) : L.cost s ≤ L.levels * L.depth :=
  Nat.mul_le_mul_right _ (Nat.sub_le _ _)

end Layers

/-- A change of what neither effects nor signals nor names are about. -/
structure World.Private (g : World → World) : Prop where
  graph : ∀ w, (g w).graph = w.graph
  effects : ∀ w, (g w).effects = w.effects
  signals : ∀ w, (g w).signals = w.signals
  names : ∀ w, (g w).names = w.names
  handles : ∀ w, (g w).handles = w.handles
  next : ∀ w, w.next ≤ (g w).next
  blind : ∀ w, g w.rested = (g w).rested

/-- Code that keeps to a licence, where `scope` tells what the names in it stand for, and whose writes
find hosts of depth `n` or more.

* `look`: the world is looked at, but not at which effects are running
* `privately`: lines are recorded, refs changed, tasks queued, and the like
* `borrow`: a signal is borrowed while code goes on that writes only signals ranked above it
* `silently`: code that writes nothing may borrow what it likes
* `operate`: an operation on what goes by a name -/
inductive Keeps (L : Layers) (scope : String → Option Handle) (n : Nat) :
    Licence → {α : Type} → Act α → Prop
  | pure {α : Type} {l : Licence} (v : α) : Keeps L scope n l (Pure.pure v)
  | bind {α β : Type} {l : Licence} {a : Act α} {f : α → Act β} :
      Keeps L scope n l a → (∀ v, Keeps L scope n l (f v)) → Keeps L scope n l (a >>= f)
  | look {α : Type} {l : Licence} {k : World → Act α} (blind : ∀ w, k w.rested = k w) :
      (∀ w, Keeps L scope n l (k w)) → Keeps L scope n l (get >>= k)
  | privately {l : Licence} {g : World → World} :
      World.Private g → Keeps L scope n l (modify g)
  | read {l : Licence} {s : Nat} : ¬ l.busy s → Keeps L scope n l (read s)
  | track {l : Licence} {s : Nat} : l.tracked s → Keeps L scope n l (track s)
  | borrow {α : Type} {l : Licence} {s : Nat} {f : Value → Act α} : ¬ l.busy s →
      (∀ t, l.written t → L.rank s < L.rank t) → (∀ v, Keeps L scope n l (f v)) →
      Keeps L scope n l (borrowing s f)
  | untracked {α : Type} {l : Licence} {a : Act α} :
      Keeps L scope n l.unobserved a → Keeps L scope n l (untracked a)
  | silently {α : Type} {l : Licence} {a : Act α} :
      Keeps L scope n l.silent a → Keeps L scope n l a
  | set {l : Licence} {s m : Nat} (v : Value) : l.written s → n ≤ m →
      Keeps L scope n l (setSignal (.ofDepth m) s v)
  | update {l : Licence} {s m : Nat} {next : Value → Act Value} : l.written s → n ≤ m →
      (∀ v, Keeps L scope n (l.within s) (next v)) →
      Keeps L scope n l (updateSignal (.ofDepth m) s next)
  | operate {l : Licence} {m : Nat} {eval : Expr → Act Value} {name word : String} {op : Operation}
      {handle : Handle} {a : Act Value} : scope name = some handle →
      operation? (.ofDepth m) eval handle op = some a → Keeps L scope n l a →
      Keeps L scope n l (operate (.ofDepth m) eval name word op)

namespace Keeps

variable {L : Layers} {scope : String → Option Handle} {n m s : Nat} {l : Licence}
  {arguments : List Value} {name word : String}

theorem map {α β : Type} {a : Act α} (f : α → β) (h : Keeps L scope n l a) :
    Keeps L scope n l (f <$> a) := by
  rw [map_eq_pure_bind]
  exact h.bind fun v => .pure _

theorem value (v : Value) : Keeps L scope n l ((Host.ofDepth (m + 1)).call (.value v) arguments) :=
  .pure v

theorem argument (i : Nat) :
    Keeps L scope n l ((Host.ofDepth (m + 1)).call (.argument i) arguments) :=
  .pure _

theorem arithmetic {op : Arithmetic} {a b : Expr}
    (ha : Keeps L scope n l ((Host.ofDepth m).call a arguments))
    (hb : Keeps L scope n l ((Host.ofDepth m).call b arguments)) :
    Keeps L scope n l ((Host.ofDepth (m + 1)).call (.arithmetic op a b) arguments) :=
  ha.bind fun _ => hb.bind fun _ => .pure _

theorem branch {test yes no : Expr}
    (htest : Keeps L scope n l ((Host.ofDepth m).call test arguments))
    (hyes : Keeps L scope n l ((Host.ofDepth m).call yes arguments))
    (hno : Keeps L scope n l ((Host.ofDepth m).call no arguments)) :
    Keeps L scope n l ((Host.ofDepth (m + 1)).call (.branch test yes no) arguments) := by
  refine htest.bind fun v => ?_
  cases v.isTruthy
  · exact hno
  · exact hyes

theorem get (hname : scope name = some (.signal s)) (hs : l.tracked s) (hbusy : ¬ l.busy s) :
    Keeps L scope n l ((Host.ofDepth (m + 1)).call (.on name word .get) arguments) :=
  .operate hname rfl ((track hs).bind fun _ => read hbusy)

theorem assign {e : Expr} (hname : scope name = some (.signal s)) (hs : l.written s) (hm : n ≤ m)
    (he : Keeps L scope n l ((Host.ofDepth m).call e arguments)) :
    Keeps L scope n l ((Host.ofDepth (m + 1)).call (.on name word (.set e)) arguments) :=
  .operate hname rfl (he.bind fun v => (set v hs hm).bind fun _ => .pure _)

theorem change {body : Expr} (hname : scope name = some (.signal s)) (hs : l.written s) (hm : n ≤ m)
    (hbody : ∀ v, Keeps L scope n (l.within s) ((Host.ofDepth m).call body [v])) :
    Keeps L scope n l ((Host.ofDepth (m + 1)).call (.on name word (.update body)) arguments) :=
  .operate hname rfl ((update hs hm hbody).bind fun _ => .pure _)

end Keeps

end FineGrain
