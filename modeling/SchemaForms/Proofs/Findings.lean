import SchemaForms.Proofs.Restoration
/-!
Visits seen from one place.  A visit that leaves its place alone is, from that
place, no more than a step from the violations found so far to those found
behind it.  `findings_andThen` and its neighbours carry this view through the
ways in which visits are put together.
-/

namespace SchemaForms

/-- A step from the violations found so far to those found behind it, which may
halt. -/
abbrev Findings := List Violation → List Violation × Option Halt

namespace Findings

variable {α β : Type}

def skip : Findings := fun found => (found, none)

def halt (reason : Halt) : Findings := fun found => (found, some reason)

/-- The step that finds one violation, and halts if it is the last one to be
collected. -/
def report (limits : Limits) (v : Violation) : Findings := fun found =>
  (found ++ [v], if limits.errorsReached (found.length + 1) then
    some .errorLimit else none)

def andThen (first next : Findings) : Findings := fun found =>
  match first found with
  | (found, none) => next found
  | (found, some reason) => (found, some reason)

def each (step : α → Findings) : List α → Findings
  | [] => skip
  | item :: rest => (step item).andThen (each step rest)

theorem andThen_of_none {first next : Findings} {found behind : List Violation}
    (hfirst : first found = (behind, none)) :
    first.andThen next found = next behind := by
  rw [andThen, hfirst]

theorem andThen_of_some {first next : Findings} {found behind : List Violation}
    {reason : Halt} (hfirst : first found = (behind, some reason)) :
    first.andThen next found = (behind, some reason) := by
  rw [andThen, hfirst]

@[simp] theorem andThen_skip (first : Findings) :
    first.andThen skip = first := by
  funext found
  rcases hfirst : first found with ⟨behind, _ | reason⟩
  · rw [andThen_of_none hfirst]
    rfl
  · rw [andThen_of_some hfirst]

theorem andThen_assoc (first next last : Findings) :
    (first.andThen next).andThen last = first.andThen (next.andThen last) := by
  funext found
  rcases hfirst : first found with ⟨behind, _ | reason⟩
  · rw [andThen_of_none hfirst, andThen, andThen_of_none hfirst]
    rfl
  · rw [andThen_of_some hfirst, andThen_of_some (andThen_of_some hfirst)]

@[simp] theorem each_nil (step : α → Findings) : each step [] = skip := rfl

@[simp] theorem each_cons (step : α → Findings) (item : α) (rest : List α) :
    each step (item :: rest) = (step item).andThen (each step rest) := rfl

@[simp] theorem each_append (step : α → Findings) (items rest : List α) :
    each step (items ++ rest) = (each step items).andThen (each step rest) := by
  induction items with
  | nil => rfl
  | cons item items ih =>
      rw [List.cons_append, each_cons, ih, each_cons, andThen_assoc]

@[simp] theorem each_map (step : β → Findings) (f : α → β) (items : List α) :
    each step (items.map f) = each (fun item => step (f item)) items := by
  induction items with
  | nil => rfl
  | cons item items ih => rw [List.map_cons, each_cons, ih, each_cons]

/-- Items without an image are skipped. -/
theorem each_filterMap (step : β → Findings) (f : α → Option β)
    (items : List α) :
    each step (items.filterMap f) =
      each (fun item => ((f item).map step).getD skip) items := by
  induction items with
  | nil => rfl
  | cons item items ih =>
      cases himage : f item with
      | none => rw [List.filterMap_cons_none himage, ih, each_cons, himage]; rfl
      | some image =>
          rw [List.filterMap_cons_some himage, each_cons, ih,
            each_cons, himage]; rfl

end Findings

namespace Visit

variable {α : Type}

/-- What a visit from a place does to the violations found so far. -/
def findings (visit : Visit) (place : Place) : Findings := fun found =>
  let (walk, reason) := visit ⟨place, found.toArray⟩
  (walk.found.toList, reason)

@[simp] theorem findings_skip (place : Place) :
    skip.findings place = Findings.skip := rfl

@[simp] theorem findings_report (limits : Limits) (place : Place) :
    (report limits).findings place =
      Findings.report limits ⟨place.instancePath, place.schemaPath⟩ := by
  funext found
  simp [findings, report, Findings.report]

@[simp] theorem findings_underInstance (token : String) (visit : Visit)
    (place : Place) :
    (underInstance token visit).findings place =
      visit.findings (place.underInstance token) := rfl

@[simp] theorem findings_underSchema (token : String) (visit : Visit)
    (place : Place) :
    (underSchema token visit).findings place =
      visit.findings (place.underSchema token) := rfl

theorem findings_andThen {first : Visit} (hfirst : first.Restores)
    (next : Visit) (place : Place) :
    (first.andThen next).findings place = (first.findings place).andThen
      (next.findings place) := by
  funext found
  have hplace := hfirst ⟨place, found.toArray⟩
  rcases hrun : first ⟨place, found.toArray⟩ with ⟨⟨behind, array⟩, _ | reason⟩
  · simp only [hrun] at hplace
    simp [findings, andThen, Findings.andThen, hrun, hplace]
  · simp [findings, andThen, Findings.andThen, hrun]

theorem findings_each {visit : α → Visit} {items : List α}
    (hvisit : ∀ item ∈ items, (visit item).Restores) (place : Place) :
    (each visit items).findings place =
      Findings.each (fun item => (visit item).findings place) items := by
  induction items with
  | nil => rfl
  | cons item items ih =>
      have hitem := hvisit item List.mem_cons_self
      have hitems := ih fun other hother =>
        hvisit other (List.mem_cons_of_mem _ hother)
      rw [each, findings_andThen hitem, hitems]
      rfl

end Visit

end SchemaForms
