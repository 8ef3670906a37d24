import FineGrain.Proofs.Text.Weave
import FineGrain.Rewrite.Tree
/-!
Trees that are placed: each part stands inside the whole, behind the part before it, and where it
says. That is what a reader of the grammar promises of the trees that it answers.
-/

namespace FineGrain

open Grammar Rewrite

/-- Whether a stretch of the text is not empty. -/
def solid (text : List Char) (span : Span) : Bool :=
  span.start < span.stop && Text.covers text span

/-- Whether nothing is ever replaced at a node, so that it may stand on top of another. -/
def isSilent : Node → Bool
  | .mk (.key _) _ [] | .mk .statement _ [] => true
  | _ => false

def hasParts (label : Label) (span : Span) (parts : List Node) : Bool :=
  match label with
  | .container => parts.head?.all fun e => !isSilent e && e.label != .classScope
  | .object => parts.all fun p =>
      match p.label with
      | .property _ _ | .spread _ => true
      | _ => false
  | .property .shorthand _ =>
      match parts with
      | [.mk (.key _) _ [], .mk (.reference _) own _] => own == span
      | _ => false
  | _ => true

theorem hasParts_object_cons {label : Label} {span own : Span} {parts rest : List Node}
    (h : hasParts .object span (.mk label own parts :: rest) = true) :
    ((∀ form computed, label = .property form computed → False) → ∃ last, label = .spread last) ∧
      hasParts .object span rest = true := by
  simp only [hasParts, List.all_cons, Bool.and_eq_true, Node.label] at h ⊢
  refine ⟨fun hother => ?_, h.2⟩
  cases label with
  | spread last => exact ⟨last, rfl⟩
  | property form computed => exact (hother form computed rfl).elim
  | _ => cases h.1

/-- Where the parts of a node may begin, behind an offset. What belongs to the scope of a class may
stand around the name of the class. -/
def front? (label : Label) (span : Span) (a : Nat) : Option Nat :=
  match label with
  | .classScope => some (max a span.start)
  | _ => if a ≤ span.start then some span.start else none

/-- Where a span ends, if that is no earlier than the end of what stands in it. -/
def close? (span : Span) (b : Nat) : Option Nat :=
  if b ≤ span.stop then some span.stop else none

/-- Where the statements of a body may begin. -/
def bodyFront (text : List Char) (concise : Bool) (directives : List Span) (body : Span) : Nat :=
  if concise then body.start
  else ((⟨text, .empty, default, .unscoped, []⟩ : Setting).bodyTop directives body).1

mutual

/-- The offset behind a tree that is placed behind an offset. -/
def placed? (text : List Char) (a : Nat) : Node → Option Nat
  | .mk label span parts =>
      if isSilent (.mk label span parts) then if Text.covers text span then some a else none
      else if solid text span && hasParts label span parts then
        match front? label span a with
        | none => none
        | some from_ =>
            match label with
            | .arrow concise => (placedBody? text concise from_ parts).bind (close? span)
            | .function .expression => (placedBody? text false from_ parts).bind (close? span)
            | _ => (placedAll? text from_ parts).bind (close? span)
      else none

def placedAll? (text : List Char) (a : Nat) : List Node → Option Nat
  | [] => some a
  | n :: rest => (placed? text a n).bind fun b => placedAll? text b rest

/-- The offset behind the parts of a function literal, the last of which is its body unless it is a
mere signature. -/
def placedBody? (text : List Char) (concise : Bool) (a : Nat) : List Node → Option Nat
  | [] => some a
  | [.mk (.body directives) span parts] =>
      let top := bodyFront text concise directives span
      if a ≤ span.start && solid text span && span.start ≤ top && Text.isBoundary text top then
        (placedAll? text top parts).bind (close? span)
      else none
  | n :: rest => (placed? text a n).bind fun b => placedBody? text concise b rest

end

variable {text : List Char} {a b : Nat} {label : Label} {span : Span} {n : Node}
variable {parts rest : List Node}

theorem solid_iff : solid text span = true ↔
    span.start < span.stop ∧ Text.covers text span = true := by
  simp [solid]

theorem close?_eq_some {c : Nat} (h : close? span c = some b) : c ≤ span.stop ∧ b = span.stop := by
  unfold close? at h
  split at h
  · exact ⟨‹_›, (Option.some.inj h).symm⟩
  · cases h

theorem front?_le {c : Nat} (h : front? label span a = some c) : a ≤ c ∧ span.start ≤ c := by
  unfold front? at h
  split at h
  · obtain rfl := Option.some.inj h
    exact ⟨Nat.le_max_left _ _, Nat.le_max_right _ _⟩
  · split at h
    · obtain rfl := Option.some.inj h
      exact ⟨‹_›, Nat.le_refl _⟩
    · cases h

theorem front?_eq {c : Nat} (h : front? label span a = some c) (hscope : label ≠ .classScope) :
    c = span.start := by
  unfold front? at h
  split at h
  · exact absurd rfl hscope
  · split at h
    · exact (Option.some.inj h).symm
    · cases h

/-- The parts of a placed node, unless it is silent: those of a function literal are placed with its
body, and those of any other node one behind another. -/
theorem placed_parts (h : placed? text a (.mk label span parts) = some b)
    (hsilent : isSilent (.mk label span parts) = false) :
    solid text span = true ∧ hasParts label span parts = true ∧ b = span.stop ∧
      ∃ c d, front? label span a = some c ∧ d ≤ span.stop ∧
        ((∃ concise, isCallback label = true ∧ (label == .arrow true) = concise ∧
            placedBody? text concise c parts = some d) ∨
          isCallback label = false ∧ placedAll? text c parts = some d) := by
  unfold placed? at h
  rw [hsilent, if_neg Bool.false_ne_true] at h
  split at h
  · rename_i hshape
    obtain ⟨hsolid, hparts⟩ := Bool.and_eq_true_iff.1 hshape
    split at h
    · cases h
    · rename_i c hfront
      split at h
      · rename_i concise
        obtain ⟨d, hd, hclose⟩ := Option.bind_eq_some_iff.1 h
        obtain ⟨hle, rfl⟩ := close?_eq_some hclose
        exact ⟨hsolid, hparts, rfl, c, d, hfront, hle,
          .inl ⟨concise, rfl, by cases concise <;> rfl, hd⟩⟩
      · obtain ⟨d, hd, hclose⟩ := Option.bind_eq_some_iff.1 h
        obtain ⟨hle, rfl⟩ := close?_eq_some hclose
        exact ⟨hsolid, hparts, rfl, c, d, hfront, hle, .inl ⟨false, rfl, rfl, hd⟩⟩
      · rename_i harrow hfunction
        obtain ⟨d, hd, hclose⟩ := Option.bind_eq_some_iff.1 h
        obtain ⟨hle, rfl⟩ := close?_eq_some hclose
        refine ⟨hsolid, hparts, rfl, c, d, hfront, hle, .inr ⟨?_, hd⟩⟩
        unfold isCallback
        split
        · exact (harrow _ rfl).elim
        · exact (hfunction rfl).elim
        · rfl
  · cases h

theorem placed_silent (h : placed? text a n = some b) (hsilent : isSilent n = true) :
    Text.covers text n.span = true ∧ b = a := by
  obtain ⟨label, span, parts⟩ := n
  unfold placed? at h
  rw [hsilent, if_pos rfl] at h
  split at h
  · exact ⟨‹_›, (Option.some.inj h).symm⟩
  · cases h

theorem placedAll_cons (h : placedAll? text a (n :: rest) = some b) :
    ∃ c, placed? text a n = some c ∧ placedAll? text c rest = some b := by
  simpa [placedAll?, Option.bind_eq_some_iff] using h

theorem placedAll_parts (h : placed? text a (.mk label span parts) = some b)
    (hlabel : isCallback label = false) : ∃ c d, placedAll? text c parts = some d := by
  cases hsilent : isSilent (.mk label span parts) with
  | true =>
    have hempty : parts = [] := by
      unfold isSilent at hsilent
      split at hsilent <;> simp_all
    exact ⟨a, a, by rw [hempty]; rfl⟩
  | false =>
    obtain ⟨-, -, -, c, d, -, -, hd⟩ := placed_parts h hsilent
    rcases hd with ⟨concise, hcallback, -⟩ | ⟨-, hd⟩
    · rw [hlabel] at hcallback
      cases hcallback
    · exact ⟨c, d, hd⟩

structure PlacedBody (text : List Char) (span : Span) (parts : List Node) (a top d : Nat) : Prop where
  front : a ≤ span.start
  solid : solid text span = true
  above : span.start ≤ top
  boundary : Text.isBoundary text top = true
  statements : placedAll? text top parts = some d
  inside : d ≤ span.stop

theorem placedBody_cons {concise : Bool}
    (h : placedBody? text concise a (.mk label span parts :: rest) = some b) :
    (∃ directives d, label = .body directives ∧ rest = [] ∧ b = span.stop ∧
        PlacedBody text span parts a (bodyFront text concise directives span) d) ∨
      (∀ directives, label = .body directives → rest ≠ []) ∧
        ∃ c, placed? text a (.mk label span parts) = some c ∧
          placedBody? text concise c rest = some b := by
  unfold placedBody? at h
  split at h
  · simp at *
  · rename_i directives _ _ heq
    cases heq
    dsimp only at h
    split at h
    · rename_i hbody
      simp only [Bool.and_eq_true, decide_eq_true_eq] at hbody
      obtain ⟨⟨⟨hfront, hsolid⟩, htop⟩, hboundary⟩ := hbody
      obtain ⟨d, hd, hclose⟩ := Option.bind_eq_some_iff.1 h
      obtain ⟨hle, rfl⟩ := close?_eq_some hclose
      exact .inl ⟨directives, d, rfl, rfl, rfl, hfront, hsolid, htop, hboundary, hd, hle⟩
    · cases h
  · rename_i hother heq
    obtain ⟨rfl, rfl⟩ := List.cons.inj heq
    refine .inr ⟨?_, Option.bind_eq_some_iff.1 h⟩
    rintro directives rfl rfl
    exact hother directives span parts rfl rfl

theorem placed_solid (h : placed? text a n = some b) (hsilent : isSilent n = false)
    (hscope : n.label ≠ .classScope) :
    solid text n.span = true ∧ a ≤ n.span.start ∧ n.span.stop ≤ b := by
  obtain ⟨label, span, parts⟩ := n
  obtain ⟨hsolid, -, rfl, c, d, hfront, -, -⟩ := placed_parts h hsilent
  obtain rfl := front?_eq hfront hscope
  exact ⟨hsolid, (front?_le hfront).1, Nat.le_refl _⟩

end FineGrain
