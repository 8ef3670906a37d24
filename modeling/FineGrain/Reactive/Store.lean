/-!
Finite maps from numbers, in the order in which the keys were first put in.
-/

namespace FineGrain

/-- Entries with distinct keys. -/
structure Store (α : Type) where
  entries : List (Nat × α)
deriving DecidableEq, Repr, Inhabited

namespace Store

def empty : Store α := ⟨[]⟩

/-- What the first entry under `key` holds. -/
def lookup (key : Nat) : List (Nat × α) → Option α
  | [] => none
  | (k, a) :: rest => if k = key then some a else lookup key rest

def get? (s : Store α) (key : Nat) : Option α := lookup key s.entries

def contains (s : Store α) (key : Nat) : Bool := (s.get? key).isSome

/-- Put `a` in place of the entry under `key`, or behind the others. -/
def putEntry (key : Nat) (a : α) : List (Nat × α) → List (Nat × α)
  | [] => [(key, a)]
  | (k, b) :: rest => if k = key then (k, a) :: rest else (k, b) :: putEntry key a rest

def put (s : Store α) (key : Nat) (a : α) : Store α := ⟨putEntry key a s.entries⟩

def erase (s : Store α) (key : Nat) : Store α := ⟨s.entries.filter (·.1 != key)⟩

/-- Change the entry under `key` if there is one. -/
def modify (s : Store α) (key : Nat) (f : α → α) : Store α :=
  ⟨s.entries.map fun (k, a) => if k == key then (k, f a) else (k, a)⟩

/-- Change the entry under `key`, starting from the default if there is none. -/
def update [Inhabited α] (s : Store α) (key : Nat) (f : α → α) : Store α :=
  s.put key (f ((s.get? key).getD default))

theorem lookup_putEntry (key k : Nat) (a : α) (l : List (Nat × α)) :
    lookup k (putEntry key a l) = if k = key then some a else lookup k l := by
  induction l with
  | nil => grind [putEntry, lookup]
  | cons e rest ih => grind [putEntry, lookup]

theorem get?_put (s : Store α) (key k : Nat) (a : α) :
    (s.put key a).get? k = if k = key then some a else s.get? k :=
  lookup_putEntry key k a s.entries

theorem lookup_filter (key k : Nat) (l : List (Nat × α)) :
    lookup k (l.filter (·.1 != key)) = if k = key then none else lookup k l := by
  induction l with
  | nil => simp [lookup]
  | cons e rest ih => grind [lookup]

theorem get?_erase (s : Store α) (key k : Nat) :
    (s.erase key).get? k = if k = key then none else s.get? k :=
  lookup_filter key k s.entries

theorem lookup_map (key k : Nat) (f : α → α) (l : List (Nat × α)) :
    lookup k (l.map fun (j, a) => if j == key then (j, f a) else (j, a)) =
      if k = key then (lookup k l).map f else lookup k l := by
  induction l with
  | nil => simp [lookup]
  | cons e rest ih => grind [lookup]

theorem get?_modify (s : Store α) (key k : Nat) (f : α → α) :
    (s.modify key f).get? k = if k = key then (s.get? k).map f else s.get? k :=
  lookup_map key k f s.entries

/-! Where an entry of a changed store comes from. -/

theorem of_put {s : Store α} {key k : Nat} {a x : α} (h : (s.put key a).get? k = some x) :
    (k = key ∧ x = a) ∨ s.get? k = some x := by
  rw [get?_put] at h
  split at h
  next hk => exact .inl ⟨hk, (Option.some.inj h).symm⟩
  next => exact .inr h

theorem of_erase {s : Store α} {key k : Nat} {x : α} (h : (s.erase key).get? k = some x) :
    s.get? k = some x := by
  rw [get?_erase] at h
  split at h
  · cases h
  · exact h

theorem of_modify {s : Store α} {key k : Nat} {f : α → α} {x : α}
    (h : (s.modify key f).get? k = some x) :
    ∃ y, s.get? k = some y ∧ x = if k = key then f y else y := by
  rw [get?_modify] at h
  split at h
  next hk =>
    obtain ⟨y, hy, rfl⟩ := Option.map_eq_some_iff.1 h
    exact ⟨y, hy, (if_pos hk).symm⟩
  next hk => exact ⟨x, h, (if_neg hk).symm⟩

end Store

end FineGrain
