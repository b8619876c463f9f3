import SchemaForms.Proofs.SideBySide
/-!
Validations at other places.  When the nodes of one validation are those of
another one at other places, with their parts, then it goes through the same
steps as the other one, and finds the same violations at the other places
(`Carries.validate_eq`).
-/

namespace SchemaForms

def Agenda.relocate (move : Place → Place) (shift : Violation → Violation)
    (a : Agenda) : Agenda :=
  ⟨a.todo.map (Part.relocate move), a.found.map shift⟩

/-- A change of places that goes along with every step of a validation below
`root'`, into one below `root`.  The violations are shifted as the places are
moved. -/
structure Carries (root root' : Schema) (move : Place → Place)
    (shift : Violation → Violation) :
    Prop where
  parts : ∀ n : Node, (n.relocate move).parts root =
    (n.parts root').map (Part.relocate move)
  depth : ∀ place, (move place).depth = place.depth
  violation : ∀ place, (move place).violation = shift place.violation

namespace Carries

variable {limits : Limits} {root root' : Schema} {move : Place → Place}
  {shift : Violation → Violation} {a : Agenda}

theorem tooDeep_eq (hcarries : Carries root root' move shift) (n : Node) :
    (n.relocate move).tooDeep limits = n.tooDeep limits := by
  simp only [Node.tooDeep, Node.relocate, hcarries.depth]

theorem paired_relocate (hcarries : Carries root root' move shift)
    (parts : List Part) :
    List.Forall₂ (Part.Paired (fun n n' => n.relocate move = n') fun v v' =>
      shift v = v') parts
      (parts.map (Part.relocate move)) := by
  rw [List.forall₂_map_right_iff, List.forall₂_same]
  intro part _
  cases part with
  | clash place => exact .clash (hcarries.violation place).symm
  | dangling name => exact .dangling
  | node n => exact .node rfl

theorem lockStep (hcarries : Carries root root' move shift) (limits : Limits) :
    LockStep (fun n n' => n.relocate move = n') shift limits root' root := by
  constructor
  · rintro n _ rfl
    exact hcarries.tooDeep_eq n
  · rintro n _ rfl
    rw [hcarries.parts]
    exact hcarries.paired_relocate _

/-- Where a moved node leads, the node itself leads to at the other place. -/
theorem exists_leadsTo (hcarries : Carries root root' move shift) {n c : Node}
    (hleads : (n.relocate move).LeadsTo root c) :
    ∃ d : Node, n.LeadsTo root' d ∧ c = d.relocate move := by
  induction hleads with
  | refl => exact ⟨n, .refl, rfl⟩
  | @tail c next _ hmeets ih =>
      obtain ⟨d, hleads, rfl⟩ := ih
      have hpart := Node.mem_parts_iff.2 hmeets
      rw [hcarries.parts, List.mem_map] at hpart
      obtain ⟨part, hpart, hmoved⟩ := hpart
      cases part with
      | node e =>
          cases hmoved
          exact ⟨e, hleads.tail (Node.mem_parts_iff.1 hpart), rfl⟩
      | _ => cases hmoved

/-- Validations of which the one comes to where the other one has been moved to
have the same result, at the other places. -/
theorem validate_eq (hcarries : Carries root root' move shift)
    {value value' : Json}
    (hreach : Agenda.Reaches limits root (.start root value)
      (a.relocate move shift))
    (hreach' : Agenda.Reaches limits root' (.start root' value') a) :
    validate limits root value = (validate limits root' value').map
      (List.map shift) := by
  have hpaired : Agenda.Paired (fun n n' => n.relocate move = n')
      (fun v v' => shift v = v') a (a.relocate move shift) := by
      refine ⟨hcarries.paired_relocate a.todo, ?_⟩
      exact List.forall₂_map_right_iff.2 (List.forall₂_same.2 fun _ _ => rfl)
  have hyields :=
    hreach'.yields_iff.1 (Agenda.yields_validate limits root' value')
  have hmoved := (hcarries.lockStep limits).yields hpaired hyields
  exact (Agenda.yields_validate limits root value).unique
    (hreach.yields_iff.2 hmoved)

end Carries

end SchemaForms
