import Mathlib.Data.List.Basic

/-!
Outlines: groups of lines, each a blank line, a heading, and the items under it.
Where no item is blank an outline can be read back (`outline_inj`), though a
heading may well be blank.
-/
namespace Mcs.Outlines

variable {Item Line : Type}

/-- Each item with whether it is the last one. -/
def marked (mark : Bool → Item → Line) : List Item → List Line
  | [] => []
  | item :: rest => mark rest.isEmpty item :: marked mark rest

theorem mem_marked {mark : Bool → Item → Line} {items : List Item} {line : Line} (member : line ∈ marked mark items) :
    ∃ last, ∃ item ∈ items, line = mark last item := by
  induction items with
  | nil => cases member
  | cons item rest ih =>
    rcases List.mem_cons.mp member with rfl | later
    · exact ⟨_, item, List.mem_cons_self, rfl⟩
    · obtain ⟨last, other, among, same⟩ := ih later
      exact ⟨last, other, List.mem_cons_of_mem _ among, same⟩

/-- Marked items are known as soon as each of them is. -/
theorem marked_inj {mark : Bool → Item → Line}
    (known : ∀ last other item item', mark last item = mark other item' → item = item') {items items' : List Item}
    (same : marked mark items = marked mark items') : items = items' := by
  induction items generalizing items' with
  | nil =>
    cases items' with
    | nil => rfl
    | cons item' rest' => cases same
  | cons item rest ih =>
    cases items' with
    | nil => cases same
    | cons item' rest' =>
      obtain ⟨first, others⟩ := List.cons.inj same
      rw [known _ _ _ _ first, ih others]

/-- What stands before the first blank line. -/
theorem before_blank {blank : Line} {before before' after after' : List Line} (apart : blank ∉ before)
    (apart' : blank ∉ before') (same : before ++ blank :: after = before' ++ blank :: after') : before = before' := by
  induction before generalizing before' with
  | nil =>
    cases before' with
    | nil => rfl
    | cons line' rest' =>
      obtain ⟨rfl, _⟩ := List.cons.inj same
      exact absurd List.mem_cons_self apart'
  | cons line rest ih =>
    cases before' with
    | nil =>
      obtain ⟨rfl, _⟩ := List.cons.inj same
      exact absurd List.mem_cons_self apart
    | cons line' rest' =>
      obtain ⟨rfl, behind⟩ := List.cons.inj same
      rw [ih (fun among => apart (List.mem_cons_of_mem _ among)) (fun among => apart' (List.mem_cons_of_mem _ among)) behind]

/-- Groups of lines, and one line more. -/
def outline (blank : Line) (groups : List (Line × List Line)) (last : Line) : List Line :=
  groups.flatMap (fun group => blank :: group.1 :: group.2) ++ [blank, last]

variable {blank : Line}

theorem outline_cons (group : Line × List Line) (rest : List (Line × List Line)) (last : Line) :
    outline blank (group :: rest) last = blank :: group.1 :: (group.2 ++ outline blank rest last) := by
  simp [outline]

theorem outline_head (blank : Line) (groups : List (Line × List Line)) (last : Line) :
    ∃ line more, outline blank groups last = blank :: line :: more := by
  cases groups with
  | nil => exact ⟨last, [], rfl⟩
  | cons group rest => exact ⟨group.1, _, outline_cons group rest last⟩

/-- The last line alone is no group. -/
theorem outline_ne_cons (last last' : Line) (group : Line × List Line) (rest : List (Line × List Line)) :
    outline blank [] last ≠ outline blank (group :: rest) last' := by
  obtain ⟨line, more, head⟩ := outline_head blank rest last'
  intro same
  rw [outline_cons, head] at same
  have lengths := congrArg List.length same
  simp only [outline, List.flatMap_nil, List.nil_append, List.length_cons, List.length_nil, List.length_append] at lengths
  omega

theorem outline_inj {groups groups' : List (Line × List Line)} (apart : ∀ group ∈ groups, blank ∉ group.2)
    (apart' : ∀ group ∈ groups', blank ∉ group.2) {last last' : Line}
    (same : outline blank groups last = outline blank groups' last') : groups = groups' ∧ last = last' := by
  induction groups generalizing groups' with
  | nil =>
    cases groups' with
    | nil => exact ⟨rfl, by simpa [outline] using same⟩
    | cons group' rest' => exact absurd same (outline_ne_cons last last' group' rest')
  | cons group rest ih =>
    cases groups' with
    | nil => exact absurd same.symm (outline_ne_cons last' last group rest)
    | cons group' rest' =>
      rw [outline_cons, outline_cons] at same
      obtain ⟨_, behind⟩ := List.cons.inj same
      obtain ⟨heading, items⟩ := List.cons.inj behind
      obtain ⟨line, more, head⟩ := outline_head blank rest last
      obtain ⟨line', more', head'⟩ := outline_head blank rest' last'
      -- The items end where the next blank line is.
      have ends := items
      rw [head, head'] at ends
      have under := before_blank (apart group List.mem_cons_self) (apart' group' List.mem_cons_self) ends
      rw [under] at items
      obtain ⟨others, final⟩ := ih (fun other among => apart other (List.mem_cons_of_mem _ among))
        (fun other among => apart' other (List.mem_cons_of_mem _ among)) (List.append_cancel_left items)
      exact ⟨by rw [Prod.ext heading under, others], final⟩

end Mcs.Outlines
