import FineGrain.Proofs.Names
/-!
Calls of an allocator. Which names it may not hand out again is told by its calls alone: those that it
has answered in a scope that no call has closed since. So a call answers the first candidate that none
of these, no reserved name and nothing in the text is.
-/

namespace FineGrain.Names

inductive Call where
  | openScope
  | closeScope
  | allocate (base : String) (visible : List Char)
deriving DecidableEq, Repr

def after (names : Names) : Call → Names
  | .openScope => names.pushScope
  | .closeScope => names.popScope
  | .allocate base visible => (names.allocate base visible).2

def afterAll (names : Names) (calls : List Call) : Names := calls.foldl after names

/-- The name that the call with a number answers, if it asks for one. -/
def answer? (names : Names) (calls : List Call) (i : Nat) : Option String :=
  match calls[i]? with
  | some (.allocate base visible) => some ((names.afterAll (calls.take i)).allocate base visible).1
  | _ => none

namespace Call

def deepen (depth : Nat) : Call → Nat
  | .openScope => depth + 1
  | .closeScope => max 1 (depth - 1)
  | .allocate _ _ => depth

/-- The number of scopes that some calls leave open. -/
def depth (calls : List Call) : Nat := calls.foldl deepen 1

/-- Behind all of some calls the scope that is innermost before the call with a number is open: since
then there have never been fewer scopes. -/
def StillOpen (calls : List Call) (i : Nat) : Prop :=
  ∀ k, i ≤ k → k ≤ calls.length → depth (calls.take i) ≤ depth (calls.take k)

variable {calls : List Call} {call : Call} {i : Nat}

theorem depth_append : depth (calls ++ [call]) = deepen (depth calls) call := by
  simp [depth]

theorem depth_pos (calls : List Call) : 1 ≤ depth calls := by
  induction calls using List.reverseRecOn with
  | nil => exact Nat.le_refl 1
  | append_singleton calls call ih =>
    rw [depth_append]
    cases call with
    | openScope => exact Nat.le_add_left 1 _
    | closeScope => exact Nat.le_max_left 1 _
    | allocate => exact ih

theorem StillOpen.le (h : StillOpen calls i) (hi : i ≤ calls.length) :
    depth (calls.take i) ≤ depth calls := by
  have hlast := h calls.length hi (Nat.le_refl _)
  rwa [List.take_length] at hlast

theorem stillOpen_length : StillOpen calls calls.length := by
  intro k hi hk
  rw [Nat.le_antisymm hk hi]

theorem stillOpen_append (hi : i ≤ calls.length) : StillOpen (calls ++ [call]) i ↔
    StillOpen calls i ∧ depth (calls.take i) ≤ depth (calls ++ [call]) := by
  have htake {k : Nat} (hk : k ≤ calls.length) : (calls ++ [call]).take k = calls.take k :=
    List.take_append_of_le_length hk
  have hall : (calls ++ [call]).take (calls.length + 1) = calls ++ [call] :=
    List.take_of_length_le (by simp)
  constructor
  · intro h
    refine ⟨fun k hik hk => ?_, ?_⟩
    · have hle := h k hik (by simp; omega)
      rwa [htake hi, htake hk] at hle
    · have hle := h (calls.length + 1) (by omega) (by simp)
      rwa [htake hi, hall] at hle
  · rintro ⟨h, hlast⟩ k hik hk
    rw [htake hi]
    rcases Nat.lt_or_ge calls.length k with hlt | hle
    · obtain rfl : k = calls.length + 1 := by simp at hk; omega
      rwa [hall]
    · rw [htake hle]
      exact h k hik hle

end Call

open Call

variable {names : Names} {reserved : List String} {calls : List Call} {call : Call}
variable {name : String} {i : Nat}

theorem afterAll_append : names.afterAll (calls ++ [call]) = (names.afterAll calls).after call := by
  simp [afterAll]

theorem answer?_lt (h : names.answer? calls i = some name) : i < calls.length := by
  by_contra hi
  rw [answer?, List.getElem?_eq_none (Nat.le_of_not_lt hi)] at h
  cases h

theorem answer?_append (hi : i < calls.length) :
    names.answer? (calls ++ [call]) i = names.answer? calls i := by
  rw [answer?, List.getElem?_append_left hi, List.take_append_of_le_length (Nat.le_of_lt hi)]
  rfl

theorem answer?_last (names : Names) (calls : List Call) (call : Call) :
    names.answer? (calls ++ [call]) calls.length =
      match call with
      | .allocate base visible => some ((names.afterAll calls).allocate base visible).1
      | _ => none := by
  rw [answer?, List.getElem?_concat_length, List.take_left]
  cases call <;> rfl

/-- A name that a call has answered in a scope that is open behind all calls; `k` scopes have been
opened in it since. -/
def Held (names : Names) (calls : List Call) (k : Nat) (name : String) : Prop :=
  ∃ i, names.answer? calls i = some name ∧ StillOpen calls i ∧
    depth (calls.take i) + k = depth calls

theorem held_append {k : Nat} : names.Held (calls ++ [call]) k name ↔
    (∃ i, names.answer? calls i = some name ∧ StillOpen calls i ∧
      depth (calls.take i) + k = depth (calls ++ [call])) ∨
    names.answer? (calls ++ [call]) calls.length = some name ∧
      depth calls + k = depth (calls ++ [call]) := by
  have htake {i : Nat} (hi : i ≤ calls.length) : (calls ++ [call]).take i = calls.take i :=
    List.take_append_of_le_length hi
  constructor
  · rintro ⟨i, hanswer, hopen, hdepth⟩
    have hi := answer?_lt hanswer
    rw [List.length_append, List.length_singleton] at hi
    rcases Nat.lt_or_ge i calls.length with hlt | hge
    · rw [answer?_append hlt] at hanswer
      rw [htake (Nat.le_of_lt hlt)] at hdepth
      exact .inl ⟨i, hanswer, ((stillOpen_append (Nat.le_of_lt hlt)).1 hopen).1, hdepth⟩
    · obtain rfl : i = calls.length := by omega
      rw [htake (Nat.le_refl _), List.take_length] at hdepth
      exact .inr ⟨hanswer, hdepth⟩
  · rintro (⟨i, hanswer, hopen, hdepth⟩ | ⟨hanswer, hdepth⟩)
    · have hi := answer?_lt hanswer
      refine ⟨i, (answer?_append hi).trans hanswer, ?_, (htake (Nat.le_of_lt hi)).symm ▸ hdepth⟩
      exact (stillOpen_append (Nat.le_of_lt hi)).2 ⟨hopen, by omega⟩
    · refine ⟨calls.length, hanswer, ?_, by rwa [htake (Nat.le_refl _), List.take_length]⟩
      exact (stillOpen_append (Nat.le_refl _)).2 ⟨stillOpen_length, by rw [List.take_length]; omega⟩

theorem held_of_silent {k : Nat} (h : names.answer? (calls ++ [call]) calls.length = none) :
    names.Held (calls ++ [call]) k name ↔
      ∃ i, names.answer? calls i = some name ∧ StillOpen calls i ∧
        depth (calls.take i) + k = depth (calls ++ [call]) := by
  rw [held_append, h]
  simp

/-- What calls have made of an allocator: its reserved names are those it had, so many scopes are open,
and in each of them are the names that are held there. -/
structure Kept (reserved : List String) (calls : List Call) (names : Names) : Prop where
  own : names.reserved = reserved
  scopes : names.scopes.length = depth calls
  held : ∀ k name, name ∈ names.scopes[k]?.getD [] ↔ (ofReserved reserved).Held calls k name

namespace Kept

theorem start (reserved : List String) : Kept reserved [] (ofReserved reserved) where
  own := rfl
  scopes := rfl
  held k name := by
    have hnone : ¬ (ofReserved reserved).Held [] k name := by
      rintro ⟨i, hanswer, -⟩
      exact absurd (answer?_lt hanswer) (Nat.not_lt_zero i)
    refine iff_of_false ?_ hnone
    cases k <;> simp [ofReserved]

theorem openScope (h : Kept reserved calls names) :
    Kept reserved (calls ++ [.openScope]) names.pushScope where
  own := h.own
  scopes := by
    rw [depth_append]
    exact congrArg (· + 1) h.scopes
  held k name := by
    rw [held_of_silent (answer?_last _ _ _), depth_append]
    cases k with
    | zero =>
      -- No scope has been as deep as the new one and open ever since.
      refine iff_of_false (List.not_mem_nil) ?_
      rintro ⟨i, hanswer, hopen, hdepth⟩
      have hle := hopen.le (Nat.le_of_lt (answer?_lt hanswer))
      rw [deepen] at hdepth
      omega
    | succ k =>
      refine (h.held k name).trans (exists_congr fun i => ?_)
      rw [deepen, ← Nat.add_assoc, Nat.add_right_cancel_iff]

theorem closeScope (h : Kept reserved calls names) :
    Kept reserved (calls ++ [.closeScope]) names.popScope := by
  obtain ⟨hreserved, hscopes, hheld⟩ := h
  obtain ⟨own, scopes⟩ := names
  match scopes, hscopes with
  | [], hscopes =>
    have hpos := depth_pos calls
    rw [← hscopes] at hpos
    exact absurd hpos (by simp)
  | [scope], hscopes =>
    have hdepth : depth (calls ++ [.closeScope]) = depth calls := by
      rw [depth_append, ← hscopes]
      rfl
    refine ⟨hreserved, hscopes.trans hdepth.symm, fun k name => ?_⟩
    rw [held_of_silent (answer?_last _ _ _), hdepth]
    exact hheld k name
  | scope :: outer :: rest, hscopes =>
    have hdepth : depth calls = depth (calls ++ [.closeScope]) + 1 := by
      rw [depth_append, ← hscopes]
      simp [deepen]
    refine ⟨hreserved, Nat.succ.inj (hscopes.trans hdepth), fun k name => ?_⟩
    rw [held_of_silent (answer?_last _ _ _)]
    refine (hheld (k + 1) name).trans (exists_congr fun i => ?_)
    rw [hdepth, ← Nat.add_assoc, Nat.add_right_cancel_iff]

theorem allocate (base : String) (visible : List Char)
    (h : Kept reserved calls ((ofReserved reserved).afterAll calls)) :
    Kept reserved (calls ++ [.allocate base visible])
      (((ofReserved reserved).afterAll calls).allocate base visible).2 := by
  have hanswer := answer?_last (ofReserved reserved) calls (.allocate base visible)
  dsimp only at hanswer
  generalize (ofReserved reserved).afterAll calls = names at h hanswer
  obtain ⟨hreserved, hscopes, hheld⟩ := h
  have hdepth : depth (calls ++ [.allocate base visible]) = depth calls := depth_append
  have hpos := depth_pos calls
  generalize hname : (names.allocate base visible).1 = own at hanswer
  have hnames : (names.allocate base visible).2 = names.record own := by
    rw [← hname]
    rfl
  rw [hnames]
  obtain ⟨reserved', scopes⟩ := names
  cases scopes with
  | nil => exact absurd (hscopes ▸ hpos) (by simp)
  | cons scope outer =>
    refine ⟨hreserved, hscopes.trans hdepth.symm, fun k name => ?_⟩
    rw [held_append, hanswer, hdepth, Option.some.injEq, Nat.add_eq_left]
    have hbefore := hheld k name
    rw [Held] at hbefore
    rw [← hbefore]
    cases k with
    | zero =>
      simp only [record, List.getElem?_cons_zero, Option.getD_some, List.mem_cons, and_true]
      rw [or_comm, eq_comm]
    | succ k => simp [record]

end Kept

theorem kept (reserved : List String) (calls : List Call) :
    Kept reserved calls ((ofReserved reserved).afterAll calls) := by
  induction calls using List.reverseRecOn with
  | nil => exact .start reserved
  | append_singleton calls call ih =>
    cases call with
    | openScope => rw [afterAll_append]; exact ih.openScope
    | closeScope => rw [afterAll_append]; exact ih.closeScope
    | allocate base visible => rw [afterAll_append]; exact ih.allocate base visible

/-- A name that a call has answered in a scope that is open behind all calls. -/
def Live (names : Names) (calls : List Call) (name : String) : Prop :=
  ∃ i, names.answer? calls i = some name ∧ StillOpen calls i

theorem live_iff_held : names.Live calls name ↔ ∃ k, names.Held calls k name := by
  constructor
  · rintro ⟨i, hanswer, hopen⟩
    have hle := hopen.le (Nat.le_of_lt (answer?_lt hanswer))
    exact ⟨depth calls - depth (calls.take i), i, hanswer, hopen, by omega⟩
  · rintro ⟨k, i, hanswer, hopen, -⟩
    exact ⟨i, hanswer, hopen⟩

theorem live_closeScope : names.Live (calls ++ [.closeScope]) name ↔
    ∃ i, names.answer? calls i = some name ∧ StillOpen calls i ∧
      (depth (calls.take i) < depth calls ∨ depth calls = 1) := by
  have hdepth : depth (calls ++ [.closeScope]) = max 1 (depth calls - 1) := depth_append
  have hpos := depth_pos calls
  constructor
  · intro hlive
    obtain ⟨k, hheld⟩ := live_iff_held.1 hlive
    obtain ⟨i, hanswer, hopen, hsum⟩ := (held_of_silent (answer?_last _ _ _)).1 hheld
    exact ⟨i, hanswer, hopen, by omega⟩
  · rintro ⟨i, hanswer, hopen, hscope⟩
    have hle := hopen.le (Nat.le_of_lt (answer?_lt hanswer))
    refine live_iff_held.2 ⟨depth (calls ++ [.closeScope]) - depth (calls.take i), ?_⟩
    exact (held_of_silent (answer?_last _ _ _)).2 ⟨i, hanswer, hopen, by omega⟩

theorem Kept.mem_taken (h : Kept reserved calls names) :
    name ∈ names.taken ↔ name ∈ reserved ∨ (ofReserved reserved).Live calls name := by
  have hscope : name ∈ names.scopes.flatten ↔ ∃ k : Nat, name ∈ names.scopes[k]?.getD [] := by
    rw [List.mem_flatten]
    constructor
    · rintro ⟨scope, hscope, hname⟩
      obtain ⟨k, hk⟩ := List.mem_iff_getElem?.1 hscope
      exact ⟨k, by rwa [hk]⟩
    · rintro ⟨k, hk⟩
      cases hget : names.scopes[k]? with
      | none => rw [hget] at hk; cases hk
      | some scope =>
        rw [hget] at hk
        exact ⟨scope, List.mem_of_getElem? hget, hk⟩
  rw [taken, List.mem_append, h.own, hscope, live_iff_held]
  exact or_congr_right (exists_congr fun k => h.held k name)

/-- A name that is not free is lengthened by an underscore, again and again, until it is free. -/
inductive Lengthens (names : Names) (visible : List Char) : String → String → Prop
  | free {name : String} (h : names.isFree visible name = true) : Lengthens names visible name name
  | taken {name result : String} (h : names.isFree visible name = false)
      (hrest : Lengthens names visible (name ++ "_") result) : Lengthens names visible name result

theorem candidate_zero (base : String) : candidate base 0 = base := by
  simp [candidate]

theorem candidate_succ (base : String) (n : Nat) : candidate base (n + 1) = candidate base n ++ "_" := by
  apply String.toList_inj.1
  rw [String.toList_append, toList_candidate, toList_candidate, List.replicate_succ', List.append_assoc]
  rfl

theorem lengthens_fresh (names : Names) (base : String) (visible : List Char) :
    names.Lengthens visible base (names.fresh base visible) := by
  obtain ⟨n, hn, hfree, hbefore⟩ := fresh_least names base visible
  have hsteps : ∀ m ≤ n, names.Lengthens visible (candidate base (n - m)) (candidate base n) := by
    intro m
    induction m with
    | zero => exact fun _ => .free hfree
    | succ m ih =>
      intro hm
      refine .taken (hbefore _ (by omega)) ?_
      rw [← candidate_succ, show n - (m + 1) + 1 = n - m by omega]
      exact ih (by omega)
  have hall := hsteps n (Nat.le_refl n)
  rwa [Nat.sub_self, candidate_zero, ← hn] at hall

/-- What a call may not answer behind other calls. -/
def Barred (reserved : List String) (calls : List Call) (visible : List Char) (name : String) : Prop :=
  name.toList <:+: visible ∨ name ∈ reserved ∨ (ofReserved reserved).Live calls name

theorem Kept.isFree_iff (h : Kept reserved calls names) {visible : List Char} :
    names.isFree visible name = true ↔ ¬ Barred reserved calls visible name := by
  rw [Names.isFree_iff, h.mem_taken, Barred, not_or, not_or, not_or]

/-- An allocator behind any calls. To ask it for a name ends, and answers the base with the fewest
underscores that make it a name which is not in the text, not reserved and not live; a name is live if
it has been answered in a scope that is still open. To close a scope releases the names answered in it
and no others, unless it is the outermost one, which stays. -/
theorem allocates_least (reserved : List String) (calls : List Call) :
    let start := ofReserved reserved
    let names := start.afterAll calls
    (∀ base visible, names.Lengthens visible base (names.allocate base visible).1 ∧
      ∃ n, (names.allocate base visible).1 = candidate base n ∧
        ¬ Barred reserved calls visible (candidate base n) ∧
        ∀ m < n, Barred reserved calls visible (candidate base m)) ∧
      (∀ name, name ∈ names.popScope.taken ↔
        name ∈ reserved ∨ start.Live (calls ++ [.closeScope]) name) ∧
      (∀ name, start.Live (calls ++ [.closeScope]) name ↔
        ∃ i, start.answer? calls i = some name ∧ StillOpen calls i ∧
          (depth (calls.take i) < depth calls ∨ depth calls = 1)) ∧
      names.scopes.length = depth calls ∧ 1 ≤ names.popScope.scopes.length := by
  intro start names
  have hkept : Kept reserved calls names := kept reserved calls
  have hclosed := hkept.closeScope
  refine ⟨fun base visible => ⟨lengthens_fresh names base visible, ?_⟩,
    fun name => hclosed.mem_taken, fun name => live_closeScope, hkept.scopes, ?_⟩
  · obtain ⟨n, hn, hfree, hbefore⟩ := fresh_least names base visible
    refine ⟨n, hn, hkept.isFree_iff.1 hfree, fun m hm => ?_⟩
    by_contra hbarred
    have hfree := hkept.isFree_iff.2 hbarred
    rw [hbefore m hm] at hfree
    cases hfree
  · rw [hclosed.scopes]
    exact depth_pos _

/-- The empty base is no name, and a second scope does not release what the first has answered. -/
example :
    let names := (ofReserved ["_"]).afterAll [.allocate "" [], .openScope, .closeScope, .closeScope]
    (names.allocate "" []).1 = "___" := by
  decide +kernel

end FineGrain.Names
