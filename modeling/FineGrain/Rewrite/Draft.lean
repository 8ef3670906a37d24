/-!
Drafts: a result together with the bindings that its text adds to the unit.
-/

namespace FineGrain

/-- A binding that a rewrite adds.

* `copy`: the value of `source`, read through the peek helper on entry to an effect callback
* `tag`: a tag value, made a component by the adapter helper -/
inductive Generated where
  | copy (name source : String)
  | tag (name : String)
deriving DecidableEq, Repr

/-- A result and the bindings added on the way to it, in order. -/
structure Draft (α : Type) where
  value : α
  generated : List Generated
deriving Repr

namespace Draft

instance : Monad Draft where
  pure a := ⟨a, []⟩
  bind d f := ⟨(f d.value).value, d.generated ++ (f d.value).generated⟩

def note (bindings : List Generated) : Draft Unit := ⟨(), bindings⟩

@[simp] theorem value_pure (a : α) : (pure a : Draft α).value = a := rfl

@[simp] theorem generated_pure (a : α) : (pure a : Draft α).generated = [] := rfl

@[simp] theorem value_bind (d : Draft α) (f : α → Draft β) :
    (d >>= f).value = (f d.value).value := rfl

@[simp] theorem generated_bind (d : Draft α) (f : α → Draft β) :
    (d >>= f).generated = d.generated ++ (f d.value).generated := rfl

@[simp] theorem value_map (f : α → β) (d : Draft α) : (f <$> d).value = f d.value := rfl

end Draft

/-- The helpers that some added bindings call. -/
structure Helpers where
  peek : Bool
  adapter : Bool
deriving DecidableEq, Repr

namespace Helpers

def ofGenerated (bindings : List Generated) : Helpers :=
  ⟨bindings.any fun | .copy .. => true | .tag _ => false,
   bindings.any fun | .copy .. => false | .tag _ => true⟩

end Helpers

end FineGrain
