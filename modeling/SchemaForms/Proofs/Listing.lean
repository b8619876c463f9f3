import SchemaForms.Proofs.DepthLimit
import SchemaForms.Proofs.ErrorLimit
import SchemaForms.Proofs.Turn
/-!
The list that a validation returns.  A listing goes through the nodes depth
first: it has what a node meets, turn by turn, and nothing else.  It is what a
validation without limits returns (`listing_of_validate`,
`validate_of_listing`), and no visited node is left out of it, in whatever way
it is led to (`Listing.mem_iff`).
-/

namespace SchemaForms

/-- The violations of some parts, depth first: a node stands for all that it
meets, turn by turn.  A ref to nothing has no listing. -/
inductive Listing (root : Schema) : List Part → List Violation → Prop where
  | nil : Listing root [] []
  | clash {place : Place} {rest : List Part} {listed : List Violation}
      (hrest : Listing root rest listed) :
      Listing root (.clash place :: rest) (place.violation :: listed)
  | node {n : Node} {parts rest : List Part} {inner listed : List Violation}
      (hparts : n.Enumerates root parts) (hinner : Listing root parts inner)
      (hrest : Listing root rest listed) :
      Listing root (.node n :: rest) (inner ++ listed)

/-- A violation at some node that is visited from this one. -/
def Node.Clashes (root : Schema) (s : Node) (v : Violation) : Prop :=
  ∃ n place, s.LeadsTo root n ∧ n.Meets root (.clash place) ∧
    v = place.violation

/-- A violation that a part is, or that a node visited from it has. -/
def Part.Clashes (root : Schema) (v : Violation) : Part → Prop
  | .clash place => v = place.violation
  | .dangling _ => False
  | .node n => n.Clashes root v

variable {root : Schema} {parts rest : List Part}
  {listed behind : List Violation} {v : Violation}

theorem Node.clashes_iff {n : Node} :
    n.Clashes root v ↔ ∃ part, n.Meets root part ∧ part.Clashes root v := by
  constructor
  · rintro ⟨c, place, hleads, hmeets, rfl⟩
    rcases Relation.ReflTransGen.cases_head hleads with
      rfl | ⟨next, hnext, hleads⟩
    · exact ⟨.clash place, hmeets, rfl⟩
    · exact ⟨.node next, hnext, c, place, hleads, hmeets, rfl⟩
  · rintro ⟨part, hmeets, hclashes⟩
    cases part with
    | clash place => exact ⟨n, place, .refl, hmeets, hclashes⟩
    | dangling name => exact hclashes.elim
    | node next =>
        obtain ⟨c, place, hleads, hclash, rfl⟩ := hclashes
        exact ⟨c, place, .head hmeets hleads, hclash, rfl⟩

/-- A listing has the violations of all visited nodes, and no others. -/
theorem Listing.mem_iff (hlisting : Listing root parts listed) :
    v ∈ listed ↔ ∃ part ∈ parts, part.Clashes root v := by
  induction hlisting with
  | nil => simp
  | clash _ ih => simp [ih, Part.Clashes]
  | node hparts _ _ ihinner ihrest =>
      simp only [hparts.complete, ← Node.clashes_iff] at ihinner
      rw [List.mem_append, ihinner, ihrest]
      simp [Part.Clashes]

theorem Listing.unique (hlisting : Listing root parts listed)
    (hlisting' : Listing root parts behind) : listed = behind := by
  induction hlisting generalizing behind with
  | nil =>
      cases hlisting'
      rfl
  | clash _ ih =>
      cases hlisting' with
      | clash hrest => rw [ih hrest]
  | node hparts _ _ ihinner ihrest =>
      cases hlisting' with
      | node hparts' hinner hrest =>
          cases hparts.unique hparts'
          rw [ihinner hinner, ihrest hrest]

theorem Listing.exists_of_append
    (hlisting : Listing root (parts ++ rest) listed) :
    ∃ first behind, Listing root parts first ∧ Listing root rest behind ∧
      listed = first ++ behind := by
  induction parts generalizing listed with
  | nil => exact ⟨[], listed, .nil, hlisting, rfl⟩
  | cons part parts ih =>
      rw [List.cons_append] at hlisting
      cases hlisting with
      | clash hlisting =>
          obtain ⟨first, behind, hfirst, hbehind, rfl⟩ := ih hlisting
          exact ⟨_, behind, .clash hfirst, hbehind, rfl⟩
      | node hparts hinner hlisting =>
          obtain ⟨first, behind, hfirst, hbehind, rfl⟩ := ih hlisting
          exact ⟨_, behind, .node hparts hinner hfirst, hbehind,
            (List.append_assoc _ _ _).symm⟩

namespace Agenda

variable {limits : Limits} {a b : Agenda} {found : List Violation}
  {reason : Option Halt}

/-- A validation that visits everything has appended the listing of all that was
to be visited. -/
theorem Ends.exists_listing (hends : Ends limits root a found none) :
    ∃ listed, Listing root a.todo listed ∧ found = a.found ++ listed := by
  generalize hreason : (none : Option Halt) = reason at hends
  induction hends with
  | stop hstop =>
      cases hstop with
      | done => exact ⟨[], .nil, (List.append_nil _).symm⟩
      | _ => cases hreason
  | step hstep _ ih =>
      obtain ⟨listed, hlisting, hfound⟩ := ih hreason
      cases hstep with
      | @report place todo before hlimit =>
          refine ⟨place.violation :: listed, .clash hlisting, ?_⟩
          rw [hfound, List.append_assoc, List.singleton_append]
      | enter hdeep =>
          obtain ⟨inner, behind, hinner, hbehind, rfl⟩ :=
            hlisting.exists_of_append
          exact ⟨inner ++ behind,
            .node (Node.enumerates_parts _ _) hinner hbehind, hfound⟩

theorem reaches_of_listing (hlisting : Listing root parts listed)
    (todo : List Part) (found : List Violation) :
    Reaches .unlimited root ⟨parts ++ todo, found⟩ ⟨todo, found ++ listed⟩ := by
  induction hlisting generalizing todo found with
  | nil =>
      rw [List.append_nil]
      exact .refl
  | @clash place rest listed _ ih =>
      have hreach := ih todo (found ++ [place.violation])
      rw [List.append_assoc, List.singleton_append] at hreach
      exact .head (.report (by simp [Limits.errorsReached, Limits.unlimited]))
        hreach
  | @node n parts rest inner listed hparts _ _ ihinner ihrest =>
      cases hparts.eq_parts
      have hinner := ihinner (rest ++ todo) found
      have hrest := ihrest todo (found ++ inner)
      rw [List.append_assoc] at hrest
      have hdeep : n.tooDeep .unlimited = false :=
        Bool.not_eq_true _ ▸ n.not_tooDeep
      exact .head (.enter hdeep) (hinner.trans hrest)

theorem Reaches.clashes_head {s : Node} {place : Place} {todo : List Part}
    (hreach : Reaches limits root ⟨[.node s], []⟩ ⟨.clash place :: todo, found⟩)
    (hv : v = place.violation) : s.Clashes root v := by
  rcases Reaches.met hreach List.mem_cons_self with heq | ⟨n, hleads, hmeets⟩
  · cases heq
  · exact ⟨n, place, hleads, hmeets, hv⟩

/-- Every violation that a validation finds is one of a node that it is led
to. -/
theorem Reaches.clashes {s : Node}
    (hreach : Reaches limits root ⟨[.node s], []⟩ a) (hv : v ∈ a.found) :
    s.Clashes root v := by
  induction hreach with
  | refl => cases hv
  | tail hreach hstep ih =>
      cases hstep with
      | report hlimit =>
          rcases List.mem_append.1 hv with hv | hv
          · exact ih hv
          · exact Reaches.clashes_head hreach (List.mem_singleton.1 hv)
      | enter hdeep => exact ih hv

theorem Ends.clashes {s : Node}
    (hends : Ends limits root ⟨[.node s], []⟩ found reason) (hv : v ∈ found) :
    s.Clashes root v := by
  obtain ⟨a, hreach, hstop⟩ := hends.exists_stop
  cases hstop with
  | errorLimit hlimit =>
      rcases List.mem_append.1 hv with hv | hv
      · exact hreach.clashes hv
      · exact Reaches.clashes_head hreach (List.mem_singleton.1 hv)
  | _ => exact Reaches.clashes hreach hv

theorem Ends.ne_errorLimit {depth : Nat}
    (hends : Ends ⟨depth, 0⟩ root a found reason) :
    reason ≠ some .errorLimit := by
  obtain ⟨b, -, hstop⟩ := hends.exists_stop
  rintro rfl
  cases hstop with
  | errorLimit hlimit => simp [Limits.errorsReached] at hlimit

end Agenda

section

variable {schema : Schema} {value : Json} {limits : Limits} {depth : Nat}

/-- What a validation returns that may collect any number of violations is the
listing. -/
theorem listing_of_validate
    (hvalid : validate ⟨depth, 0⟩ schema value = .ok listed) :
    Listing schema [.node (.start schema value)] listed := by
  obtain ⟨reason, hends, rfl | rfl⟩ := Agenda.validate_eq_ok_iff.1 hvalid
  · obtain ⟨listed', hlisting, rfl⟩ := hends.exists_listing
    exact hlisting
  · exact absurd rfl hends.ne_errorLimit

theorem validate_of_listing
    (hlisting : Listing schema [.node (.start schema value)] listed) :
    validate .unlimited schema value = .ok listed := by
  have hreach := Agenda.reaches_of_listing hlisting [] []
  exact Agenda.validate_of_ends (Agenda.Reaches.ends hreach (.stop .done))

/-- Within limits, a validation returns the first violations of the listing, or
fails for the nesting of the refs. -/
theorem validate_of_listing_limits
    (hlisting : Listing schema [.node (.start schema value)] listed)
    (limits : Limits) :
    validate limits schema value =
        .ok (if limits.maxErrors = 0 then listed
          else listed.take limits.maxErrors) ∨
      0 < limits.maxDepth ∧
        validate limits schema value =
          .error (.maxDepthExceeded limits.maxDepth) := by
  obtain ⟨depth, errors⟩ := limits
  have hunlimited := validate_of_listing hlisting
  have hcut : validate ⟨0, errors⟩ schema value =
      .ok (if errors = 0 then listed else listed.take errors) := by
    by_cases herrors : errors = 0
    · rw [if_pos herrors, herrors]
      exact hunlimited
    · rw [if_neg herrors]
      exact validate_take (Nat.pos_of_ne_zero herrors) (.inr rfl) hunlimited
  rcases Nat.eq_zero_or_pos depth with rfl | hpos
  · exact .inl hcut
  · by_cases hinside : Agenda.RefInside ⟨0, errors⟩ schema value depth
    · exact .inr ⟨hpos,
        (validate_eq_maxDepthExceeded_iff_refInside hpos (.inr rfl)).2 hinside⟩
    · exact .inl ((validate_eq_of_not_refInside hpos (.inr rfl) hinside).trans
        hcut)

/-- Every violation that a validation finds is one of a visited node. -/
theorem clashes_of_validate (hvalid : validate limits schema value = .ok listed)
    (hv : v ∈ listed) :
    (Node.start schema value).Clashes schema v := by
  obtain ⟨reason, hends, -⟩ := Agenda.validate_eq_ok_iff.1 hvalid
  exact hends.clashes hv

/-- A validation returns the violations of the visited nodes, depth first. -/
theorem validate_lists_clashes (schema : Schema) (value : Json) :
    (∀ depth listed, validate ⟨depth, 0⟩ schema value = .ok listed →
      (∀ other, Listing schema [.node (.start schema value)] other ↔
        other = listed) ∧
        ∀ v, v ∈ listed ↔ ∃ n place,
        Node.LeadsTo schema (.start schema value) n ∧
          n.Meets schema (.clash place) ∧ v = place.violation) ∧
    (∀ listed, Listing schema [.node (.start schema value)] listed → ∀ limits,
      validate limits schema value =
          .ok (if limits.maxErrors = 0 then listed
            else listed.take limits.maxErrors) ∨
        0 < limits.maxDepth ∧
          validate limits schema value =
            .error (.maxDepthExceeded limits.maxDepth)) ∧
    ∀ limits listed, validate limits schema value = .ok listed → ∀ v ∈ listed,
      ∃ n place, Node.LeadsTo schema (.start schema value) n ∧
        n.Meets schema (.clash place) ∧ v = place.violation := by
  refine ⟨?_, fun listed => validate_of_listing_limits, ?_⟩
  · intro depth listed hvalid
    have hlisting := listing_of_validate hvalid
    constructor
    · intro other
      constructor
      · intro hother
        exact hother.unique hlisting
      · rintro rfl
        exact hlisting
    · intro v
      rw [hlisting.mem_iff]
      simp [Part.Clashes, Node.Clashes]
  · intro limits listed hvalid v hv
    exact clashes_of_validate hvalid hv

theorem validate_lists_clashes_labelledTree :
    Listing labelledTree [.node (.start labelledTree mislabelledTree)]
        mislabelledTreeViolations ∧
      (∃ n place, Node.LeadsTo labelledTree
          (.start labelledTree mislabelledTree) n ∧
        n.Meets labelledTree (.clash place) ∧
          ⟨["children", "1", "size"], ["definitions", "tree"]⟩ =
            place.violation) ∧
      validate ⟨3, 2⟩ labelledTree mislabelledTree =
        .ok (mislabelledTreeViolations.take 2) ∧
      ∀ v ∈ mislabelledTreeViolations.take 2, ∃ n place,
        Node.LeadsTo labelledTree (.start labelledTree mislabelledTree) n ∧
          n.Meets labelledTree (.clash place) ∧ v = place.violation := by
  obtain ⟨hlists, hlimits, hsound⟩ :=
    validate_lists_clashes labelledTree mislabelledTree
  obtain ⟨hunique, hclashes⟩ := hlists 3 mislabelledTreeViolations rfl
  have hlisting := (hunique mislabelledTreeViolations).2 rfl
  refine ⟨hlisting, (hclashes _).1 (by decide), ?_, hsound ⟨3, 2⟩ _ rfl⟩
  rcases hlimits _ hlisting ⟨3, 2⟩ with hvalid | ⟨-, hfailed⟩
  · exact hvalid
  · cases hfailed.symm.trans
      (rfl : _ = Except.ok (mislabelledTreeViolations.take 2))

end

end SchemaForms
