import SchemaForms.Proofs.Agenda
import Mathlib.Data.List.Forall2
/-!
Two validations side by side.  Where the nodes of two validations come in pairs,
and the parts of a pair come in pairs again, both go through the same steps and
have the same result, be it that they go on for ever (`LockStep.validate_eq`).
The names of the definitions need not be the same in both
(`Translates.validate_eq`).  Where the second validation may also wait for the
first one, it still has a list of violations when the first one has
(`Accompanies.exists_validate`).
-/

namespace SchemaForms

namespace Agenda

variable {limits : Limits} {root : Schema} {a b : Agenda}
  {found : List Violation} {reason : Option Halt}
  {result' : Except ValidationFailure (List Violation)}

/-- A validation goes on or stops. -/
theorem step_or_stops (limits : Limits) (root : Schema) (a : Agenda) :
    (∃ b, Step limits root a b) ∨ ∃ found reason,
      Stops limits a found reason := by
  obtain ⟨todo, found⟩ := a
  cases todo with
  | nil => exact .inr ⟨_, _, .done⟩
  | cons part todo =>
      cases part with
      | clash place =>
          cases hlimit : limits.errorsReached (found.length + 1) with
          | true => exact .inr ⟨_, _, .errorLimit hlimit⟩
          | false => exact .inl ⟨_, .report hlimit⟩
      | dangling name => exact .inr ⟨_, _, .unresolvedRef⟩
      | node n =>
          cases hdeep : n.tooDeep limits with
          | true => exact .inr ⟨_, _, .depthExceeded hdeep⟩
          | false => exact .inl ⟨_, .enter hdeep⟩

theorem Reaches.ends_iff (hreach : Reaches limits root a b) :
    Ends limits root a found reason ↔ Ends limits root b found reason := by
  induction hreach with
  | refl => exact Iff.rfl
  | tail _ hstep ih =>
      exact ih.trans ⟨fun hends => hends.of_step hstep, .step hstep⟩

/-- The result with which the validation of an agenda ends, or the failure to
end. -/
inductive Yields (limits : Limits) (root : Schema) (a : Agenda) :
    Except ValidationFailure (List Violation) → Prop where
  | ends {found : List Violation} {reason : Option Halt}
      (hends : Ends limits root a found reason) :
      Yields limits root a (result limits found reason)
  | endless (hnever : ∀ found reason, ¬ Ends limits root a found reason) :
      Yields limits root a (.error .endless)

theorem Yields.unique {other : Except ValidationFailure (List Violation)}
    (hyields : Yields limits root a result')
    (hother : Yields limits root a other) :
    result' = other := by
  cases hyields with
  | ends hends =>
      cases hother with
      | ends hends' =>
          obtain ⟨rfl, rfl⟩ := hends.unique hends'
          rfl
      | endless hnever => exact absurd hends (hnever _ _)
  | endless hnever =>
      cases hother with
      | ends hends => exact absurd hends (hnever _ _)
      | endless _ => rfl

/-- A validation has the result of the agenda that it starts with. -/
theorem yields_validate (limits : Limits) (schema : Schema) (value : Json) :
    Yields limits schema (start schema value)
      (validate limits schema value) := by
  by_cases hreturns : validate limits schema value = .error .endless
  · rw [hreturns]
    exact .endless (validate_eq_endless_iff.1 hreturns)
  · obtain ⟨found, reason, hends, hresult⟩ := ends_of_validate hreturns
    rw [hresult]
    exact .ends hends

theorem Reaches.yields_iff (hreach : Reaches limits root a b) :
    Yields limits root a result' ↔ Yields limits root b result' := by
  constructor
  · intro hyields
    cases hyields with
    | ends hends => exact .ends (hreach.ends_iff.1 hends)
    | endless hnever =>
        exact .endless fun found reason hends =>
          hnever found reason (hreach.ends_iff.2 hends)
  · intro hyields
    cases hyields with
    | ends hends => exact .ends (hreach.ends_iff.2 hends)
    | endless hnever =>
        exact .endless fun found reason hends =>
          hnever found reason (hreach.ends_iff.1 hends)

end Agenda

section

variable (pairs : Node → Node → Prop) (same : Violation → Violation → Prop)

/-- Two parts that are visited at the same time: two nodes that are a pair, two
violations that are told together, or the same ref to nothing. -/
inductive Part.Paired : Part → Part → Prop where
  | clash {place place' : Place}
      (hsame : same place.violation place'.violation) :
      Paired (.clash place) (.clash place')
  | dangling {name : String} : Paired (.dangling name) (.dangling name)
  | node {n n' : Node} (hpair : pairs n n') : Paired (.node n) (.node n')

/-- Two agendas that are worked off together. -/
structure Agenda.Paired (a a' : Agenda) : Prop where
  todo : List.Forall₂ (Part.Paired pairs same) a.todo a'.todo
  found : List.Forall₂ same a.found a'.found

/-- The second validation accompanies the first one: when that one enters a
node, it enters the node of the pair, or it waits there until the first one
comes to that node too. -/
def Accompanies (limits : Limits) (root root' : Schema) : Prop :=
  ∀ n n', pairs n n' → n.tooDeep limits = false →
    List.Forall₂ (Part.Paired pairs same) (n.parts root) [.node n'] ∨
      n'.tooDeep limits = false ∧
        List.Forall₂ (Part.Paired pairs same) (n.parts root) (n'.parts root')

end

/-- The two validations enter the nodes of each pair together, and the second
one tells the violations of the first one in its own way. -/
structure LockStep (pairs : Node → Node → Prop) (shift : Violation → Violation)
    (limits : Limits) (root root' : Schema) : Prop where
  tooDeep : ∀ n n', pairs n n' → n'.tooDeep limits = n.tooDeep limits
  parts : ∀ n n', pairs n n' →
    List.Forall₂ (Part.Paired pairs fun v v' => shift v = v') (n.parts root)
      (n'.parts root')

variable {limits : Limits} {root root' : Schema} {pairs : Node → Node → Prop}
  {same : Violation → Violation → Prop} {shift : Violation → Violation}
  {a b a' : Agenda} {found : List Violation} {reason : Option Halt}

namespace Agenda.Paired

theorem start {s s' : Schema} {value value' : Json}
    (hpair : pairs (Node.start s value) (Node.start s' value')) :
    Paired pairs same (Agenda.start s value) (Agenda.start s' value') :=
  ⟨.cons (.node hpair) .nil, .nil⟩

/-- A violation is told together with one of the other agenda. -/
theorem clash {place : Place} {todo : List Part}
    (hpaired : Paired pairs same ⟨.clash place :: todo, found⟩ a') :
    ∃ place' todo' found', a' = ⟨.clash place' :: todo', found'⟩ ∧
      found'.length = found.length ∧
      Paired pairs same ⟨todo, found ++ [place.violation]⟩
        ⟨todo', found' ++ [place'.violation]⟩ := by
  obtain ⟨htodo, hfound⟩ := hpaired
  obtain ⟨todo', found'⟩ := a'
  cases htodo with
  | cons hpart htodo =>
      cases hpart with
      | clash hsame =>
          refine ⟨_, _, _, rfl, hfound.length_eq.symm, htodo, ?_⟩
          exact List.rel_append hfound (.cons hsame .nil)

/-- A node is visited together with one of the other agenda. -/
theorem node {n : Node} {todo : List Part}
    (hpaired : Paired pairs same ⟨.node n :: todo, found⟩ a') :
    ∃ n' todo' found', a' = ⟨.node n' :: todo', found'⟩ ∧ pairs n n' ∧
      ∀ parts parts', List.Forall₂ (Part.Paired pairs same) parts parts' →
        Paired pairs same ⟨parts ++ todo, found⟩ ⟨parts' ++ todo', found'⟩ := by
  obtain ⟨htodo, hfound⟩ := hpaired
  obtain ⟨todo', found'⟩ := a'
  cases htodo with
  | cons hpart htodo =>
      cases hpart with
      | node hpair =>
          refine ⟨_, _, _, rfl, hpair, ?_⟩
          intro parts parts' hparts
          exact ⟨List.rel_append hparts htodo, hfound⟩

/-- Where one agenda stops, the other one does so for the same reason, if it is
no less deep there. -/
theorem stops (hpaired : Paired pairs same a a')
    (hstop : Stops limits a found reason)
    (hdeep : reason = some .depthExceeded → ∀ n n', pairs n n' →
      n.tooDeep limits = true →
      n'.tooDeep limits = true) :
    ∃ found', Stops limits a' found' reason ∧
      List.Forall₂ same found found' := by
  cases hstop with
  | done =>
      obtain ⟨htodo, hfound⟩ := hpaired
      obtain ⟨todo', found'⟩ := a'
      cases htodo
      exact ⟨_, .done, hfound⟩
  | errorLimit hlimit =>
      obtain ⟨place', todo', found', rfl, hlength, hreported⟩ := hpaired.clash
      exact ⟨_, .errorLimit (hlength ▸ hlimit), hreported.found⟩
  | depthExceeded hdeep' =>
      obtain ⟨n', todo', found', rfl, hpair, hrest⟩ := hpaired.node
      exact ⟨_, .depthExceeded (hdeep rfl _ _ hpair hdeep'),
        (hrest [] [] .nil).found⟩
  | unresolvedRef =>
      obtain ⟨htodo, hfound⟩ := hpaired
      obtain ⟨todo', found'⟩ := a'
      cases htodo with
      | cons hpart htodo =>
          cases hpart
          exact ⟨_, .unresolvedRef, hfound⟩

end Agenda.Paired

namespace Accompanies

open Agenda

theorem step (haccompanies : Accompanies pairs same limits root root')
    (hpaired : Agenda.Paired pairs same a a') (hstep : Step limits root a b) :
    ∃ b', Reaches limits root' a' b' ∧ Agenda.Paired pairs same b b' := by
  cases hstep with
  | report hlimit =>
      obtain ⟨place', todo', found', rfl, hlength, hreported⟩ := hpaired.clash
      exact ⟨_, .single (.report (hlength ▸ hlimit)), hreported⟩
  | enter hdeep =>
      obtain ⟨n', todo', found', rfl, hpair, hrest⟩ := hpaired.node
      rcases haccompanies _ _ hpair hdeep with hwaits | ⟨hdeep', hparts⟩
      · exact ⟨_, .refl, hrest _ _ hwaits⟩
      · exact ⟨_, .single (.enter hdeep'), hrest _ _ hparts⟩

theorem ends (haccompanies : Accompanies pairs same limits root root')
    (hpaired : Agenda.Paired pairs same a a')
    (hends : Ends limits root a found reason)
    (hreason : reason ≠ some .depthExceeded) :
    ∃ found', Ends limits root' a' found' reason ∧
      List.Forall₂ same found found' := by
  induction hends generalizing a' with
  | stop hstop =>
      obtain ⟨found', hstop', hfound⟩ := hpaired.stops hstop fun h =>
        absurd h hreason
      exact ⟨found', .stop hstop', hfound⟩
  | step hstep _ ih =>
      obtain ⟨b', hreach, hpaired'⟩ := haccompanies.step hpaired hstep
      obtain ⟨found', hends', hfound⟩ := ih hpaired' hreason
      exact ⟨found', hreach.ends hends', hfound⟩

/-- A validation that accompanies one with a list of violations has a list of
the same violations. -/
theorem exists_validate
    (haccompanies : Accompanies pairs same limits root root')
    {value value' : Json}
    (hpair : pairs (Node.start root value) (Node.start root' value'))
    (hvalid : validate limits root value = .ok found) :
    ∃ found', validate limits root' value' = .ok found' ∧
      List.Forall₂ same found found' := by
  obtain ⟨reason, hends, hreason⟩ := validate_eq_ok_iff.1 hvalid
  have hne : reason ≠ some .depthExceeded := by
    rcases hreason with rfl | rfl <;> simp
  obtain ⟨found', hends', hfound⟩ := haccompanies.ends (.start hpair) hends hne
  exact ⟨found', validate_eq_ok_iff.2 ⟨reason, hends', hreason⟩, hfound⟩

end Accompanies

def ValidationFailure.renamed (rename : String → String) : ValidationFailure →
    ValidationFailure
  | .unresolvedRef name => .unresolvedRef (rename name)
  | failure => failure

def Halt.renamed (rename : String → String) : Halt → Halt
  | .unresolvedRef name => .unresolvedRef (rename name)
  | reason => reason

/-- The same result, with its violations and the name of a missing definition
told in another way. -/
def translateResult (shift : Violation → Violation) (rename : String → String)
    (result : Except ValidationFailure (List Violation)) :
    Except ValidationFailure (List Violation) :=
  (result.map (List.map shift)).mapError (ValidationFailure.renamed rename)

section

variable (pairs : Node → Node → Prop) (shift : Violation → Violation)
  (rename : String → String)

/-- Two parts that are visited at the same time, of which the second one is told
in another way. -/
inductive Part.Translated : Part → Part → Prop where
  | clash {place place' : Place}
      (hshift : shift place.violation = place'.violation) :
      Translated (.clash place) (.clash place')
  | dangling {name : String} :
      Translated (.dangling name) (.dangling (rename name))
  | node {n n' : Node} (hpair : pairs n n') : Translated (.node n) (.node n')

/-- Two agendas that are worked off together, of which the second one is told in
another way. -/
structure Agenda.Translated (a a' : Agenda) : Prop where
  todo : List.Forall₂ (Part.Translated pairs shift rename) a.todo a'.todo
  found : a'.found = a.found.map shift

/-- The two validations enter the nodes of each pair together, and the second
one tells everything in its own way. -/
structure Translates (limits : Limits) (root root' : Schema) : Prop where
  tooDeep : ∀ n n', pairs n n' → n'.tooDeep limits = n.tooDeep limits
  parts : ∀ n n', pairs n n' →
    List.Forall₂ (Part.Translated pairs shift rename) (n.parts root)
      (n'.parts root')

end

namespace Translates

open Agenda

variable {rename : String → String}
  {result' : Except ValidationFailure (List Violation)}

theorem result_eq (limits : Limits) (found : List Violation)
    (reason : Option Halt) :
    result limits (found.map shift) (reason.map (Halt.renamed rename)) =
      translateResult shift rename (result limits found reason) := by
  rcases reason with _ | halt
  · rfl
  · cases halt <;> rfl

theorem step (htranslates : Translates pairs shift rename limits root root')
    (hagendas : Agenda.Translated pairs shift rename a a')
    (hstep : Step limits root a b) :
    ∃ b', Step limits root' a' b' ∧
      Agenda.Translated pairs shift rename b b' := by
  obtain ⟨htodo, hfound⟩ := hagendas
  obtain ⟨todo', found'⟩ := a'
  cases hfound
  cases hstep with
  | @report place todo found hlimit =>
      cases htodo with
      | cons hpart htodo =>
          cases hpart with
          | clash hshift =>
              refine ⟨_, .report ?_, htodo, ?_⟩
              · rw [List.length_map]
                exact hlimit
              · rw [List.map_append, List.map_singleton, hshift]
  | enter hdeep =>
      cases htodo with
      | cons hpart htodo =>
          cases hpart with
          | node hpair =>
              have hdeep' := (htranslates.tooDeep _ _ hpair).trans hdeep
              exact ⟨_, .enter hdeep',
                List.rel_append (htranslates.parts _ _ hpair) htodo, rfl⟩

theorem stops (htranslates : Translates pairs shift rename limits root root')
    (hagendas : Agenda.Translated pairs shift rename a a')
    (hstop : Stops limits a found reason) :
    Stops limits a' (found.map shift) (reason.map (Halt.renamed rename)) := by
  obtain ⟨htodo, hfound⟩ := hagendas
  obtain ⟨todo', found'⟩ := a'
  cases hfound
  cases hstop with
  | done =>
      cases htodo
      exact .done
  | errorLimit hlimit =>
      cases htodo with
      | cons hpart _ =>
          cases hpart with
          | clash hshift =>
              rw [List.map_append, List.map_singleton, hshift]
              refine .errorLimit ?_
              rw [List.length_map]
              exact hlimit
  | depthExceeded hdeep =>
      cases htodo with
      | cons hpart _ =>
          cases hpart with
          | node hpair =>
              exact .depthExceeded ((htranslates.tooDeep _ _ hpair).trans hdeep)
  | unresolvedRef =>
      cases htodo with
      | cons hpart _ =>
          cases hpart
          exact .unresolvedRef

theorem ends (htranslates : Translates pairs shift rename limits root root')
    (hagendas : Agenda.Translated pairs shift rename a a')
    (hends : Ends limits root a found reason) :
    Ends limits root' a' (found.map shift)
      (reason.map (Halt.renamed rename)) := by
  induction hends generalizing a' with
  | stop hstop => exact .stop (htranslates.stops hagendas hstop)
  | step hstep _ ih =>
      obtain ⟨b', hstep', hagendas'⟩ := htranslates.step hagendas hstep
      exact .step hstep' (ih hagendas')

/-- Where the second validation comes to an end, the first one does. -/
theorem exists_ends
    (htranslates : Translates pairs shift rename limits root root')
    (hagendas : Agenda.Translated pairs shift rename a a')
    (hends : Ends limits root' a' found reason) :
    ∃ found reason, Ends limits root a found reason := by
  induction hends generalizing a with
  | stop hstop =>
      rcases step_or_stops limits root a with
        ⟨b, hstep⟩ | ⟨found, reason, hstop'⟩
      · obtain ⟨b', hstep', -⟩ := htranslates.step hagendas hstep
        exact absurd hstep' hstop.not_step
      · exact ⟨found, reason, .stop hstop'⟩
  | step hstep' _ ih =>
      rcases step_or_stops limits root a with
        ⟨b, hstep⟩ | ⟨found, reason, hstop⟩
      · obtain ⟨b', hstep'', hagendas'⟩ := htranslates.step hagendas hstep
        obtain rfl := hstep''.unique hstep'
        obtain ⟨found, reason, hends⟩ := ih hagendas'
        exact ⟨found, reason, .step hstep hends⟩
      · exact ⟨found, reason, .stop hstop⟩

theorem yields (htranslates : Translates pairs shift rename limits root root')
    (hagendas : Agenda.Translated pairs shift rename a a')
    (hyields : Yields limits root a result') :
    Yields limits root' a' (translateResult shift rename result') := by
  cases hyields with
  | ends hends =>
      rw [← result_eq]
      exact .ends (htranslates.ends hagendas hends)
  | endless hnever =>
      refine .endless fun found reason hends => ?_
      obtain ⟨found', reason', hends'⟩ := htranslates.exists_ends hagendas hends
      exact hnever found' reason' hends'

/-- Both validations have the same result, each in its own way. -/
theorem validate_eq
    (htranslates : Translates pairs shift rename limits root root')
    {value value' : Json}
    (hpair : pairs (Node.start root value) (Node.start root' value')) :
    validate limits root' value' = translateResult shift rename
      (validate limits root value) :=
  (yields_validate limits root' value').unique
    (htranslates.yields ⟨.cons (.node hpair) .nil, rfl⟩
      (yields_validate limits root value))

end Translates

theorem Part.Paired.translated {part part' : Part}
    (hpart : Part.Paired pairs (fun v v' => shift v = v') part part') :
    Part.Translated pairs shift id part part' := by
  cases hpart with
  | clash hshift => exact .clash hshift
  | dangling => exact .dangling
  | node hpair => exact .node hpair

/-- Where the definitions keep their names, failures are the same on both
sides. -/
theorem translateResult_id
    (result' : Except ValidationFailure (List Violation)) :
    translateResult shift id result' = result'.map (List.map shift) := by
  cases result' with
  | ok found => rfl
  | error failure => cases failure <;> rfl

namespace LockStep

open Agenda

variable {result' : Except ValidationFailure (List Violation)}

theorem translates (hlock : LockStep pairs shift limits root root') :
    Translates pairs shift id limits root root' :=
  ⟨hlock.tooDeep, fun n n' hpair => (hlock.parts n n' hpair).imp fun _ _ =>
    Part.Paired.translated⟩

theorem yields (hlock : LockStep pairs shift limits root root')
    (hpaired : Agenda.Paired pairs (fun v v' => shift v = v') a a')
    (hyields : Yields limits root a result') :
    Yields limits root' a' (result'.map (List.map shift)) := by
  have hfound : a'.found = a.found.map shift := by
    rw [← List.forall₂_eq_eq_eq, List.forall₂_map_right_iff]
    exact hpaired.found.flip.imp fun _ _ hshift => hshift.symm
  rw [← translateResult_id]
  exact hlock.translates.yields ⟨hpaired.todo.imp fun _ _ =>
    Part.Paired.translated, hfound⟩ hyields

/-- Validations in step with each other have the same result, each in its own
way. -/
theorem validate_eq (hlock : LockStep pairs shift limits root root')
    {value value' : Json}
    (hpair : pairs (Node.start root value) (Node.start root' value')) :
    validate limits root' value' = (validate limits root value).map
      (List.map shift) :=
  (yields_validate limits root' value').unique
    (hlock.yields (.start hpair) (yields_validate limits root value))

/-- Where the violations are the same on both sides, so are the results. -/
theorem validate_eq_of_id (hlock : LockStep pairs id limits root root')
    {value value' : Json}
    (hpair : pairs (Node.start root value) (Node.start root' value')) :
    validate limits root' value' = validate limits root value := by
  rw [hlock.validate_eq hpair]
  cases validate limits root value with
  | ok found => exact congrArg Except.ok found.map_id
  | error failure => rfl

end LockStep

end SchemaForms
