import Mathlib.Data.List.Induction
import FineGrain.Proofs.Lexical.Resolution
import FineGrain.Proofs.Lexical.Scoping
/-!
Gathering free variables in one pass. Scopes are numbered as they open, and names are looked up when
all have been gathered. That finds what lexical scoping says, except where a hoisted pattern opens
scopes or declares names inside a default value, where a class expression has a name, where a static
block hoists one, and where a parameter mentions what only the body declares.
-/

namespace FineGrain.Lexical

open Grammar

/-! ### One pass -/

def declares (declared : List (Nat × String)) (scopes : List Nat) (name : String) : Bool :=
  scopes.any fun number => declared.contains (number, name)

/-- Uses that no scope around them declares, as mentions. -/
def unresolved (mention : Use → Mention) (declared : List (Nat × String)) (uses : List Use) :
    List Mention :=
  (uses.filter fun u => !declares declared u.scopes u.name).map mention

/-- What is mentioned and declared by none of some scopes. -/
def unknown (declared : List (Nat × String)) (scopes : List Nat) (mentioned : List Mention) :
    List Mention :=
  mentioned.filter fun m => !declares declared scopes m.name

namespace Resolution

variable {r r' r'' : Resolution} {l k : List String} {f g : List Mention}

/-- The number of the innermost function scope. -/
def root (r : Resolution) : Nat :=
  match r.stack.find? (·.isFunction) with
  | some scope => scope.number
  | none => 0

/-- A function scope is open, and all numbers have been given out. -/
structure Grounded (r : Resolution) : Prop where
  rooted : ∃ scope ∈ r.stack, scope.isFunction
  numbers : ∀ number ∈ r.path, number < r.count
  declared : ∀ d ∈ r.declared, d.1 < r.count

/-- What is gathered over a tree that declares `l`, hoists `k` and mentions `f` freely.

* `grounded`, `stack`, `hoisting`, `count`: the scopes that were opened are closed again
* `declared`: of the scopes that were open, the innermost one gets the names `l` and the function the
  names `k`
* `uses`: once the scopes that were opened have all their names, what is used and found in none of
  them is what is mentioned freely -/
structure Gathers (r r' : Resolution) (l k : List String) (f : List Mention) : Prop where
  grounded : r'.Grounded
  stack : r'.stack = r.stack
  hoisting : r'.hoisting = r.hoisting
  count : r.count ≤ r'.count
  declared : ∀ number name, number < r.count → ((number, name) ∈ r'.declared ↔
    (number, name) ∈ r.declared ∨ number = r.home ∧ name ∈ l ∨ number = r.root ∧ name ∈ k)
  uses : ∃ reads writes, r'.references = r.references ++ reads ∧
    r'.assigned = r.assigned ++ writes ∧ ∀ declared : List (Nat × String),
      (∀ number name, r.count ≤ number → number < r'.count →
        ((number, name) ∈ declared ↔ (number, name) ∈ r'.declared)) →
      unresolved (fun u => .read u.name u.start) declared reads =
          (unknown declared r.path f).filter (·.isRead) ∧
        unresolved (fun u => .write u.name) declared writes =
          (unknown declared r.path f).filter (!·.isRead)

theorem Grounded.root_mem (h : r.Grounded) : r.root ∈ r.path := by
  obtain ⟨scope, hmem, hfunction⟩ := h.rooted
  obtain ⟨found, hfound⟩ := Option.isSome_iff_exists.1 (List.find?_isSome.2 ⟨scope, hmem, hfunction⟩)
  rw [root, hfound]
  exact List.mem_map_of_mem (List.mem_of_find?_eq_some hfound)

theorem Grounded.home_mem (h : r.Grounded) : r.home ∈ r.path := by
  cases hh : r.hoisting with
  | true =>
    have hroot : r.home = r.root := by rw [home, hh, if_pos rfl]; rfl
    exact hroot ▸ h.root_mem
  | false =>
    obtain ⟨scope, hmem, -⟩ := h.rooted
    obtain ⟨inner, rest, hstack⟩ := List.exists_cons_of_ne_nil (List.ne_nil_of_mem hmem)
    rw [home, hh, if_neg Bool.false_ne_true, path, hstack]
    exact List.mem_cons_self

theorem Grounded.opened (isFunction : Bool) (hr : r.Grounded) :
    (r.step (.enter isFunction)).Grounded where
  rooted := by
    obtain ⟨scope, hmem, hfunction⟩ := hr.rooted
    exact ⟨scope, List.mem_cons_of_mem _ hmem, hfunction⟩
  numbers number hn := by
    rcases List.mem_cons.1 hn with rfl | hn
    · exact Nat.lt_succ_self _
    · exact Nat.lt_succ_of_lt (hr.numbers number hn)
  declared d hd := Nat.lt_succ_of_lt (hr.declared d hd)

namespace Gathers

theorem home (h : Gathers r r' l k f) : r'.home = r.home := by
  rw [Resolution.home, Resolution.home, h.stack, h.hoisting]

theorem root (h : Gathers r r' l k f) : r'.root = r.root := by
  rw [Resolution.root, Resolution.root, h.stack]

theorem path (h : Gathers r r' l k f) : r'.path = r.path := by
  rw [Resolution.path, Resolution.path, h.stack]

/-- What comes behind leaves the scopes alone that have been closed. -/
theorem declared_closed {number : Nat} {name : String} (hr : r.Grounded) (h : Gathers r r' l k f)
    {l' k' : List String} {f' : List Mention} (h' : Gathers r' r'' l' k' f')
    (hle : r.count ≤ number) (hlt : number < r'.count) :
    (number, name) ∈ r''.declared ↔ (number, name) ∈ r'.declared := by
  have hhome : number ≠ r'.home := by
    rw [h.home]
    exact Nat.ne_of_gt (Nat.lt_of_lt_of_le (hr.numbers _ hr.home_mem) hle)
  have hroot : number ≠ r'.root := by
    rw [h.root]
    exact Nat.ne_of_gt (Nat.lt_of_lt_of_le (hr.numbers _ hr.root_mem) hle)
  rw [h'.declared number name hlt]
  simp [hhome, hroot]

theorem refl (h : r.Grounded) : Gathers r r [] [] [] where
  grounded := h
  stack := rfl
  hoisting := rfl
  count := Nat.le_refl _
  declared := by simp
  uses := ⟨[], [], by simp, by simp, fun _ _ => ⟨rfl, rfl⟩⟩

theorem trans {l' k' : List String} {f' : List Mention} (hr : r.Grounded) (h : Gathers r r' l k f)
    (h' : Gathers r' r'' l' k' f') : Gathers r r'' (l ++ l') (k ++ k') (f ++ f') where
  grounded := h'.grounded
  stack := h'.stack.trans h.stack
  hoisting := h'.hoisting.trans h.hoisting
  count := Nat.le_trans h.count h'.count
  declared number name hn := by
    rw [h'.declared number name (Nat.lt_of_lt_of_le hn h.count), h.declared number name hn, h.home,
      h.root]
    grind
  uses := by
    obtain ⟨reads, writes, hreads, hwrites, huses⟩ := h.uses
    obtain ⟨reads', writes', hreads', hwrites', huses'⟩ := h'.uses
    refine ⟨reads ++ reads', writes ++ writes', by rw [hreads', hreads, List.append_assoc],
      by rw [hwrites', hwrites, List.append_assoc], fun declared hd => ?_⟩
    have hfirst := huses declared fun number name hle hlt => by
      rw [hd number name hle (Nat.lt_of_lt_of_le hlt h'.count), h.declared_closed hr h' hle hlt]
    have hsecond := huses' declared fun number name hle hlt =>
      hd number name (Nat.le_trans h.count hle) hlt
    rw [h.path] at hsecond
    simp only [unresolved, unknown, List.filter_append, List.map_append] at hfirst hsecond ⊢
    exact ⟨by rw [hfirst.1, hsecond.1], by rw [hfirst.2, hsecond.2]⟩

theorem declare (hr : r.Grounded) (name : String) :
    Gathers r (r.step (.declare name)) [name] [] [] where
  grounded := by
    refine ⟨hr.rooted, hr.numbers, fun d hd => ?_⟩
    rcases List.mem_cons.1 hd with rfl | hd
    · exact hr.numbers _ hr.home_mem
    · exact hr.declared d hd
  stack := rfl
  hoisting := rfl
  count := Nat.le_refl _
  declared number other _ := by
    simp only [step, List.mem_cons, Prod.mk.injEq, List.not_mem_nil, or_false, and_false]
    exact or_comm
  uses := ⟨[], [], by simp [step], by simp [step], fun _ _ => ⟨rfl, rfl⟩⟩

theorem read (hr : r.Grounded) (name : String) (start : Nat) :
    Gathers r (r.step (.reference name start)) [] [] [.read name start] where
  grounded := ⟨hr.rooted, hr.numbers, hr.declared⟩
  stack := rfl
  hoisting := rfl
  count := Nat.le_refl _
  declared := by simp [step]
  uses := by
    refine ⟨[⟨name, r.path, start⟩], [], rfl, by simp [step], fun declared _ => ?_⟩
    cases hd : declares declared r.path name <;>
      simp [unresolved, unknown, Mention.name, Mention.isRead, hd]

theorem write (hr : r.Grounded) (name : String) :
    Gathers r (r.step (.assign name)) [] [] [.write name] where
  grounded := ⟨hr.rooted, hr.numbers, hr.declared⟩
  stack := rfl
  hoisting := rfl
  count := Nat.le_refl _
  declared := by simp [step]
  uses := by
    refine ⟨[], [⟨name, r.path, 0⟩], by simp [step], rfl, fun declared _ => ?_⟩
    cases hd : declares declared r.path name <;>
      simp [unresolved, unknown, Mention.name, Mention.isRead, hd]

theorem pattern (on : Bool) (h : Gathers (r.step (.hoisting on)) r' l k f)
    (hr : r.hoisting = false) :
    Gathers r (r'.step (.hoisting false)) (if on then [] else l) (if on then l ++ k else k) f where
  grounded := ⟨h.grounded.rooted, h.grounded.numbers, h.grounded.declared⟩
  stack := h.stack
  hoisting := hr.symm
  count := h.count
  declared number name hn := by
    have hroot : (r.step (.hoisting on)).root = r.root := rfl
    have hhome : (r.step (.hoisting on)).home = if on then r.root else r.home := by
      cases on with
      | true => rfl
      | false => rw [Resolution.home, Resolution.home, hr]; rfl
    refine (h.declared number name hn).trans ?_
    rw [hhome, hroot]
    cases on
    · simp [step]
    · simp [step]
      grind
  uses := h.uses

theorem home_opened {isFunction : Bool} (hon : r.hoisting = true → isFunction = true) :
    (r.step (.enter isFunction)).home = r.count := by
  cases isFunction with
  | true => cases hh : r.hoisting <;> simp [Resolution.home, step, hh]
  | false =>
    have hoff : r.hoisting = false := by simpa using hon
    simp [Resolution.home, step, hoff]

theorem root_opened (isFunction : Bool) :
    (r.step (.enter isFunction)).root = if isFunction then r.count else r.root := by
  cases isFunction <;> rfl

theorem declared_opened {isFunction : Bool} {name : String} (hr : r.Grounded)
    (hon : r.hoisting = true → isFunction = true)
    (h : Gathers (r.step (.enter isFunction)) r' l k f) :
    (r.count, name) ∈ r'.declared ↔ name ∈ if isFunction then l ++ k else l := by
  have hnew : (r.count, name) ∉ r.declared := fun hd => Nat.lt_irrefl _ (hr.declared _ hd)
  have hroot : r.count ≠ r.root := Nat.ne_of_gt (hr.numbers _ hr.root_mem)
  rw [h.declared r.count name (Nat.lt_succ_self _), home_opened hon, root_opened]
  cases isFunction <;> simp [step, hnew, hroot]

theorem enclosed {isFunction : Bool} {inside : List Event} (hr : r.Grounded)
    (hon : r.hoisting = true → isFunction = true)
    (h : Gathers (r.step (.enter isFunction)) (inside.foldl step (r.step (.enter isFunction))) l k f) :
    Gathers r ((Lexical.enclosed isFunction inside).foldl step r) [] (if isFunction then [] else k)
      (outside (if isFunction then l ++ k else l) f) := by
  rw [foldl_enclosed]
  generalize inside.foldl step (r.step (.enter isFunction)) = inner at h ⊢
  -- Leaving puts back the stack that was there before, whatever the events inside have opened.
  have hleave : inner.step .leave = { inner with stack := r.stack } := by
    obtain ⟨scope, hmem, -⟩ := hr.rooted
    obtain ⟨outer, rest, hrest⟩ := List.exists_cons_of_ne_nil (List.ne_nil_of_mem hmem)
    have hinner : inner.stack = ⟨r.count, isFunction⟩ :: outer :: rest := hrest ▸ h.stack
    rw [step, hinner, hrest]
  rw [hleave]
  constructor
  case grounded =>
    refine ⟨hr.rooted, fun number hn => ?_, h.grounded.declared⟩
    exact Nat.lt_of_lt_of_le (hr.numbers number hn) (Nat.le_of_succ_le h.count)
  case stack => rfl
  case hoisting => exact h.hoisting
  case count => exact Nat.le_of_succ_le h.count
  case declared =>
    intro number name hn
    refine (h.declared number name (Nat.lt_succ_of_lt hn)).trans ?_
    have hne : number ≠ r.count := Nat.ne_of_lt hn
    rw [home_opened hon, root_opened]
    cases isFunction <;> simp [step, hne]
  case uses =>
    obtain ⟨reads, writes, hreads, hwrites, huses⟩ := h.uses
    refine ⟨reads, writes, hreads, hwrites, fun declared hd => ?_⟩
    -- The new scope declares just the names of `l`, and those of `k` as well if it is a function's.
    have hscope (name : String) : declared.contains (r.count, name) =
        (if isFunction then l ++ k else l).contains name := by
      have hnames : (r.count, name) ∈ inner.declared ↔ name ∈ if isFunction then l ++ k else l :=
        declared_opened hr hon h
      rw [Bool.eq_iff_iff, List.contains_iff_mem, List.contains_iff_mem, ← hnames]
      exact hd r.count name (Nat.le_refl _) h.count
    have hunknown : unknown declared (r.step (.enter isFunction)).path f =
        unknown declared r.path (outside (if isFunction then l ++ k else l) f) := by
      rw [unknown, unknown, outside, List.filter_filter]
      refine List.filter_congr fun m _ => ?_
      change (!(declared.contains (r.count, m.name) || declares declared r.path m.name)) = _
      rw [hscope, Bool.not_or, Bool.and_comm]
    rw [← hunknown]
    exact huses declared fun number name hle hlt => hd number name (Nat.le_of_succ_le hle) hlt

end Gathers

end Resolution

open Resolution

/-! ### Trees -/

theorem gathers_declareOuter {r : Resolution} (role : Role) (parts : List Node) (hr : r.Grounded) :
    Gathers r ((declareOuter role parts).foldl step r) (functionName role parts) [] [] := by
  fun_cases declareOuter role parts with
  | case1 name => exact .declare hr name
  | case2 =>
    rw [functionName.eq_2 role parts (by assumption)]
    exact .refl hr

-- By induction on the tree. While hoisting is on, names go to the innermost function: in a tidy tree
-- that is the innermost scope of all wherever a function has been opened, so that one statement
-- serves the patterns of hoisted declarators and all other trees.
mutual

theorem gathers_events {inPattern : Bool} : ∀ (n : Node) (r : Resolution), r.Grounded →
    tidy inPattern n → (r.hoisting = true → inPattern = true) →
    Gathers r ((events n).foldl step r) (own n) (hoisted n) (free n)
  | .mk label span parts, r, hr, ht, hon => by
    -- Every scope is gathered into a resolution of its own, and leaves behind what it does not declare.
    have hblock (hoff : !inPattern) (ht : tidyAll inPattern parts) :
        Gathers r ((enclosed false (eventsAll parts)).foldl step r) [] (hoistedAll parts)
          (outside (ownAll parts) (freeAll parts)) := by
      refine .enclosed hr (fun hh => ?_) (gathers_eventsAll parts _ (.opened false hr) ht hon)
      exact absurd (hon hh) (by simpa using hoff)
    have hfunction {r : Resolution} (hr : r.Grounded) (hon : r.hoisting = true → inPattern = true)
        (ht : apart parts && tidyAll inPattern parts) :
        Gathers r ((enclosed true (eventsAll parts)).foldl step r) [] []
          (outside (headNames parts) (freeFunction (bodyNames parts) parts)) := by
      obtain ⟨hapart, hparts⟩ := Bool.and_eq_true_iff.1 ht
      rw [outside_freeFunction hapart]
      exact .enclosed hr (fun _ => rfl) (gathers_eventsAll parts _ (.opened true hr) hparts hon)
    cases label with
    | reference name => exact .read hr name span.start
    | binding name => exact .declare hr name
    | target name => exact .write hr name
    | targetShorthand name =>
      have hwrite := Gathers.write hr name
      exact hwrite.trans hr (gathers_eventsAll parts _ hwrite.grounded ht hon)
    | declarator kind =>
      obtain ⟨hoff, hparts⟩ := Bool.and_eq_true_iff.1 ht
      refine gathers_declarator kind span parts r hr (Bool.eq_false_iff.2 fun hh => ?_) hparts
      exact absurd (hon hh) (by simpa using hoff)
    | function role =>
      have houter := gathers_declareOuter role parts hr
      have h := houter.trans hr (hfunction houter.grounded (fun hh => hon (houter.hoisting ▸ hh)) ht)
      rw [List.append_nil] at h
      rw [events, List.foldl_append]
      exact h
    | arrow concise => exact hfunction hr hon ht
    | staticBlock =>
      obtain ⟨hoff, hparts⟩ := Bool.and_eq_true_iff.1 ht
      obtain ⟨hoff, hempty⟩ := Bool.and_eq_true_iff.1 hoff
      have h := hblock hoff hparts
      rw [List.isEmpty_iff.1 hempty] at h
      rw [hoisted, free, names, List.isEmpty_iff.1 hempty, List.append_nil]
      exact h
    | «class» role =>
      cases role with
      | expression =>
        obtain ⟨hoff, hparts⟩ := Bool.and_eq_true_iff.1 ht
        obtain ⟨hoff, hempty⟩ := Bool.and_eq_true_iff.1 hoff
        have h := gathers_eventsAll parts r hr hparts hon
        rw [List.isEmpty_iff.1 hempty] at h
        rw [free, List.isEmpty_iff.1 hempty, outside_nil]
        exact h
      | _ => exact gathers_eventsAll parts r hr ht hon
    | classScope | block | loop | cases | «catch» | typeScope =>
      obtain ⟨hoff, hparts⟩ := Bool.and_eq_true_iff.1 ht
      exact hblock hoff hparts
    | _ => exact gathers_eventsAll parts r hr ht hon

theorem gathers_eventsAll {inPattern : Bool} : ∀ (l : List Node) (r : Resolution), r.Grounded →
    tidyAll inPattern l → (r.hoisting = true → inPattern = true) →
    Gathers r ((eventsAll l).foldl step r) (ownAll l) (hoistedAll l) (freeAll l)
  | [], r, hr, ht, hon => .refl hr
  | n :: rest, r, hr, ht, hon => by
    obtain ⟨hn, hrest⟩ := Bool.and_eq_true_iff.1 ht
    have h := gathers_events n r hr hn hon
    rw [eventsAll, List.foldl_append]
    exact h.trans hr (gathers_eventsAll rest _ h.grounded hrest fun hh => hon (h.hoisting ▸ hh))

theorem gathers_declarator (kind : VariableKind) (span : Span) : ∀ (parts : List Node)
    (r : Resolution), r.Grounded → r.hoisting = false → tidyDeclarator (kind == .var) parts →
    Gathers r ((events (.mk (.declarator kind) span parts)).foldl step r)
      (own (.mk (.declarator kind) span parts)) (hoisted (.mk (.declarator kind) span parts))
      (free (.mk (.declarator kind) span parts))
  | [], r, hr, hoff, ht => by
    have hopen : (r.step (.hoisting (kind == .var))).Grounded :=
      ⟨hr.rooted, hr.numbers, hr.declared⟩
    have h := (Gathers.refl hopen).pattern (kind == .var) hoff
    cases kind <;> exact h
  | pattern :: value, r, hr, hoff, ht => by
    obtain ⟨hpattern, hvalue⟩ := Bool.and_eq_true_iff.1 ht
    have hopen : (r.step (.hoisting (kind == .var))).Grounded :=
      ⟨hr.rooted, hr.numbers, hr.declared⟩
    have h := (gathers_events pattern _ hopen hpattern id).pattern (kind == .var) hoff
    have hbehind := gathers_eventsAll value _ h.grounded hvalue fun hh => hh
    rw [events, declaratorEvents, List.foldl_cons, List.foldl_append, List.foldl_cons]
    have hall := h.trans hr hbehind
    cases kind with
    | var => simpa [own, ownValue, hoisted, ownAll, hoistedAll, free, freeAll] using hall
    | block => exact hall

end

/-! ### Gathering by name -/

theorem eraseDups_snoc (l : List String) (x : String) :
    (l ++ [x]).eraseDups = if x ∈ l then l.eraseDups else l.eraseDups ++ [x] := by
  rw [List.eraseDups_append]
  by_cases hx : x ∈ l
  · simp [List.removeAll, hx]
  · simp only [List.removeAll, hx, if_false, List.filter_cons, List.elem_eq_contains,
      List.contains_eq_mem, decide_false, Bool.not_false, if_true, List.filter_nil]
    rfl

theorem nodup_eraseDups (l : List String) : l.eraseDups.Nodup := by
  induction l using List.reverseRecOn with
  | nil => exact .nil
  | append_singleton l x ih =>
    rw [eraseDups_snoc]
    split
    next => exact ih
    next hx => exact List.nodup_append.2 ⟨ih, by simp, by grind [List.mem_eraseDups]⟩

theorem gather_map {f : String → List Nat} {u : Use} {l : List String} (hl : l.Nodup) :
    FreeVariable.gather (l.map fun name => ⟨name, f name⟩) u =
      if u.name ∈ l then l.map fun name => ⟨name, if name = u.name then f name ++ [u.start] else f name⟩
      else (l.map fun name => ⟨name, f name⟩) ++ [⟨u.name, [u.start]⟩] := by
  induction l with
  | nil => rfl
  | cons name rest ih =>
    obtain ⟨hname, hrest⟩ := List.nodup_cons.1 hl
    rw [List.map_cons, FreeVariable.gather, ih hrest]
    by_cases h : name = u.name
    · have hkept : rest.map (fun n => (⟨n, f n⟩ : FreeVariable)) = rest.map fun n =>
          ⟨n, if n = u.name then f n ++ [u.start] else f n⟩ :=
        List.map_congr_left fun n hn => by rw [if_neg]; rintro rfl; exact hname (h ▸ hn)
      simp [h, hkept]
    · have h' : u.name ≠ name := fun hh => h hh.symm
      by_cases hmem : u.name ∈ rest <;> simp [h, h', hmem]

theorem startsOf_snoc (name other : String) (start : Nat) (l : List (String × Nat)) :
    startsOf name (l ++ [(other, start)]) =
      if name = other then startsOf name l ++ [start] else startsOf name l := by
  rw [startsOf, startsOf, List.filter_append, List.map_append]
  by_cases h : name = other
  · simp [h]
  · have h' : ¬ other = name := fun hh => h hh.symm
    simp [h, h']

theorem startsOf_eq_nil {name : String} {l : List (String × Nat)} (h : name ∉ l.map (·.1)) :
    startsOf name l = [] := by
  rw [startsOf, List.map_eq_nil_iff, List.filter_eq_nil_iff]
  intro p hp hname
  exact h (beq_iff_eq.1 hname ▸ List.mem_map_of_mem hp)

theorem gather_tally (l : List (String × Nat)) (u : Use) :
    FreeVariable.gather (tally l) u = tally (l ++ [(u.name, u.start)]) := by
  rw [tally, gather_map (nodup_eraseDups _), tally, List.map_append, List.map_cons, List.map_nil,
    eraseDups_snoc]
  simp only [List.mem_eraseDups, startsOf_snoc]
  split
  next => rfl
  next hnew =>
    have hkept : (l.map (·.1)).eraseDups.map (fun name => (⟨name, startsOf name l⟩ : FreeVariable)) =
        (l.map (·.1)).eraseDups.map fun name => ⟨name,
          if name = u.name then startsOf name l ++ [u.start] else startsOf name l⟩ := by
      refine List.map_congr_left fun name hname => ?_
      rw [if_neg]
      rintro rfl
      exact hnew (List.mem_eraseDups.1 hname)
    rw [List.map_append, hkept, List.map_cons, List.map_nil, if_pos rfl, startsOf_eq_nil hnew,
      List.nil_append]

theorem foldl_gather (uses : List Use) :
    uses.foldl FreeVariable.gather [] = tally (uses.map fun u => (u.name, u.start)) := by
  have hfold (done : List (String × Nat)) : uses.foldl FreeVariable.gather (tally done) =
      tally (done ++ uses.map fun u => (u.name, u.start)) := by
    induction uses generalizing done with
    | nil => simp
    | cons u rest ih => rw [List.foldl_cons, gather_tally, ih, List.map_cons, List.append_assoc]; rfl
  exact hfold []

/-! ### Literals -/

theorem grounded_start : start.Grounded :=
  ⟨⟨⟨0, true⟩, List.mem_singleton.2 rfl, rfl⟩, fun number h => by
    obtain rfl : number = 0 := by simpa [path, start] using h
    exact Nat.zero_lt_one, fun d hd => by cases hd⟩

theorem unresolved_literal {literal : Node} (h : tidyLiteral literal) :
    unresolved (fun u => .read u.name u.start) (resolve (literalEvents literal)).declared
        (resolve (literalEvents literal)).references = (freeLiteral literal).filter (·.isRead) ∧
      unresolved (fun u => .write u.name) (resolve (literalEvents literal)).declared
        (resolve (literalEvents literal)).assigned = (freeLiteral literal).filter (!·.isRead) := by
  obtain ⟨hapart, hparts⟩ := Bool.and_eq_true_iff.1 h
  have hall : Gathers .start (resolve (literalEvents literal)) _ _ _ :=
    gathers_eventsAll (literalParts literal) .start grounded_start hparts (fun hh => by cases hh)
  obtain ⟨reads, writes, hreads, hwrites, huses⟩ := hall.uses
  have hscope (name : String) : (resolve (literalEvents literal)).declared.contains (0, name) =
      (names (literalParts literal)).contains name := by
    rw [Bool.eq_iff_iff, List.contains_iff_mem, List.contains_iff_mem,
      hall.declared 0 name Nat.zero_lt_one, names, List.mem_append]
    simp [start, home, root]
  have hunknown : unknown (resolve (literalEvents literal)).declared start.path
      (freeAll (literalParts literal)) = freeLiteral literal := by
    rw [freeLiteral, outside_freeFunction hapart]
    refine List.filter_congr fun m _ => ?_
    change (!((resolve (literalEvents literal)).declared.contains (0, m.name) || false)) = _
    rw [hscope, Bool.or_false]
  rw [hreads, hwrites, ← hunknown]
  exact huses _ fun _ _ _ _ => Iff.rfl

theorem assignedOuter_literal {literal : Node} (h : tidyLiteral literal) :
    (resolve (literalEvents literal)).assignedOuter = writtenOutside literal := by
  rw [writtenOutside, ← (unresolved_literal h).2, unresolved, List.map_map]
  rfl

theorem readings_literal {literal : Node} (h : tidyLiteral literal) :
    ((resolve (literalEvents literal)).references.filter fun u =>
        !(resolve (literalEvents literal)).isLocal u).map (fun u => (u.name, u.start)) =
      (freeLiteral literal).filterMap Mention.reading? := by
  have hall : (freeLiteral literal).filterMap Mention.reading? =
      ((freeLiteral literal).filter (·.isRead)).filterMap Mention.reading? := by
    rw [List.filterMap_filter]
    congr 1
    funext m
    cases m <;> rfl
  rw [hall, ← (unresolved_literal h).1, unresolved, List.filterMap_map]
  exact List.filterMap_eq_map.symm ▸ rfl

/-- One pass over a function literal finds what lexical scoping says. -/
theorem freeVariables_eq_tally {literal : Node} (h : tidyLiteral literal) :
    freeVariables literal = tally (readOutside literal) := by
  rw [freeVariables, foldl_gather, readOutside, ← readings_literal h, List.filter_map,
    Resolution.outerReferences, assignedOuter_literal h, List.filter_filter, List.filter_filter]
  congr 2
  refine List.filter_congr fun u _ => ?_
  rw [← Bool.and_assoc, Bool.and_comm (!neverFree.contains u.name)]
  rfl

/-- `{ var [a = () => { let t; }, b]; } b`: the inner declarator ends the hoisting of `b`. -/
example :
    let node (label : Label) (parts : List Node) := Node.mk label (.point 0) parts
    let inner := node (.arrow false)
      [node (.body []) [node (.declarator .block) [node (.binding "t") []]]]
    let pattern := node .arrayPattern
      [node .defaulted [node (.binding "a") [], inner], node (.binding "b") []]
    let block := node .block [node (.declarator .var) [pattern]]
    let literal := node (.arrow false) [node (.body []) [block, node (.reference "b") []]]
    freeVariables literal = [⟨"b", [0]⟩] ∧ tally (readOutside literal) = [] := by
  decide +kernel

end FineGrain.Lexical
