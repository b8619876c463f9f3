import SchemaForms.Proofs.Locations
/-!
Places in and out of the definitions.  A path that starts at a definition is
told from there, and every other path from the root; below a node without a ref
nothing else is the case than at the node itself (`Node.Meets.head?_eq_iff`).
So places may be moved in one way outside the definitions and in another one
inside of them, and the parts of every node go along
(`Node.parts_relocate_of_frames`).
-/

namespace SchemaForms

variable {root : Schema} {n c : Node} {part : Part}

def Part.schemaPath? : Part → Option SchemaPath
  | .clash place => some place.schemaPath
  | .dangling _ => none
  | .node n => some n.place.schemaPath

/-- Off the refs, the parts of a node stand at paths that go on from its own,
and not to a definition. -/
theorem Node.Meets.exists_schemaPath (hmeets : n.Meets root part)
    (hform : ∀ name, n.schema.form ≠ .ref name) :
    ∃ tokens, part.schemaPath? = some (n.place.schemaPath ++ tokens) ∧
      tokens.head? ≠ some Keyword.definitions.name := by
  cases part with
  | clash place =>
      obtain ⟨tokens, hpath, htokens, -⟩ := hmeets.exists_tokens
      exact ⟨tokens, congrArg some hpath, htokens⟩
  | dangling name =>
      cases hmeets with
      | dangling href _ => exact absurd href (hform name)
  | node c =>
      obtain ⟨tokens, hholds, hpath⟩ := hmeets.exists_holds hform
      obtain ⟨keyword, rest, rfl, hkeyword⟩ := hholds.exists_cons
      refine ⟨_, congrArg some hpath, ?_⟩
      intro hhead
      exact hkeyword (Keyword.name_injective (Option.some.inj hhead))

theorem Part.relocate_congr {move move' : Place → Place}
    (hmove : ∀ place : Place, part.schemaPath? = some place.schemaPath →
      move place = move' place) :
    part.relocate move = part.relocate move' := by
  cases part with
  | clash place => exact congrArg Part.clash (hmove place rfl)
  | dangling name => rfl
  | node n =>
      exact congrArg (fun place => Part.node { n with place := place })
        (hmove n.place rfl)

/-- Whether a path starts at a definition is the same for a node and for its
parts. -/
theorem Node.Meets.head?_eq_iff {path : SchemaPath} (hmeets : n.Meets root part)
    (hform : ∀ name, n.schema.form ≠ .ref name)
    (hpath : part.schemaPath? = some path) :
    path.head? = some Keyword.definitions.name ↔
      n.place.schemaPath.head? = some Keyword.definitions.name := by
  obtain ⟨tokens, htokens, hhead⟩ := hmeets.exists_schemaPath hform
  cases hpath.symm.trans htokens
  cases hstart : n.place.schemaPath with
  | nil => simpa using hhead
  | cons first rest => simp

/-- Off the refs, it is enough that places move compatibly which start at a
definition as the node does, or do not start at one as the node does not. -/
theorem Node.parts_relocate_of_head {move move' : Place → Place}
    (hmove : Place.Compatible move') (hform : ∀ name, n.schema.form ≠ .ref name)
    (hsame : ∀ place : Place,
      (place.schemaPath.head? = some Keyword.definitions.name ↔
      n.place.schemaPath.head? = some Keyword.definitions.name) →
      move place = move' place) :
    (n.relocate move).parts root = (n.parts root).map (Part.relocate move) := by
  have hnode : n.relocate move = n.relocate move' := by
    simp only [relocate, hsame n.place Iff.rfl]
  rw [hnode, parts_relocate hmove root n hform]
  apply List.map_congr_left
  intro part hpart
  apply Part.relocate_congr
  intro place hplace
  have hmeets := mem_parts_iff.1 hpart
  exact (hsame place (hmeets.head?_eq_iff hform hplace)).symm

/-- The parts of a node go along with a change of places that is compatible with
the steps outside the definitions, with those inside of them, and with the refs
that lead there. -/
theorem Node.parts_relocate_of_frames {move outside inside : Place → Place}
    (houtside : Place.Compatible outside) (hinside : Place.Compatible inside)
    (hmove : ∀ place, move place =
      if place.schemaPath.head? = some Keyword.definitions.name then
        inside place else outside place)
    (hrefs : ∀ name place, move (place.atDefinition name) =
      (move place).atDefinition name)
    (root : Schema) (n : Node) :
    (n.relocate move).parts root = (n.parts root).map (Part.relocate move) := by
  by_cases href : ∃ name, n.schema.form = .ref name
  · obtain ⟨name, hform⟩ := href
    have hform' : (n.relocate move).schema.form = .ref name := hform
    cases htarget : root.definition? name with
    | none =>
        rw [parts_dangling hform htarget, parts_dangling hform' htarget]
        rfl
    | some target =>
        rw [parts_ref hform htarget, parts_ref hform' htarget]
        simp only [entry, relocate, List.map_singleton, Part.relocate, hrefs]
  · have hform : ∀ name, n.schema.form ≠ .ref name := fun name hname =>
      href ⟨name, hname⟩
    by_cases hstart : n.place.schemaPath.head? = some Keyword.definitions.name
    · apply parts_relocate_of_head hinside hform
      intro place hplace
      rw [hmove, if_pos (hplace.2 hstart)]
    · apply parts_relocate_of_head houtside hform
      intro place hplace
      rw [hmove, if_neg fun h => hstart (hplace.1 h)]

end SchemaForms
