import SchemaForms.Proofs.ErrorLimit
import SchemaForms.Proofs.Frames
import SchemaForms.Proofs.Relocation
/-!
The frame law of visits.  A visit is back at its place whenever it ends, and
puts what it finds behind what was found before.  Of the state in which it
starts, it looks at the number of active refs and at the number of violations
only: told from the place where it starts, what it finds is the same from
everywhere (`visitor_frame`).
-/

namespace SchemaForms

/-- A path in the schema that goes on behind another one, unless it starts at a
definition. -/
def SchemaPath.behind (base path : SchemaPath) : SchemaPath :=
  if path.head? = some Keyword.definitions.name then path else base ++ path

/-- The place that is reached from a base as `p` is from the root. -/
def Place.behind (base p : Place) : Place :=
  ⟨base.instancePath ++ p.instancePath,
    SchemaPath.behind base.schemaPath p.schemaPath, p.depth⟩

def Violation.behind (base : Place) (v : Violation) : Violation :=
  ⟨base.instancePath ++ v.instancePath,
    SchemaPath.behind base.schemaPath v.schemaPath⟩

/-- To go on behind a base is a change of places that goes along with every
step. -/
theorem carries_behind (root : Schema) (base : Place) :
    Carries root root base.behind (.behind base) := by
  have houtside : Place.Compatible fun p : Place =>
      ⟨base.instancePath ++ p.instancePath, base.schemaPath ++ p.schemaPath,
        p.depth⟩ := by
    constructor <;> simp [Place.underInstance, Place.underSchema]
  have hinside : Place.Compatible fun p : Place =>
      { p with instancePath := base.instancePath ++ p.instancePath } := by
    constructor <;> simp [Place.underInstance, Place.underSchema]
  refine ⟨?_, fun _ => rfl, fun _ => rfl⟩
  apply Node.parts_relocate_of_frames houtside hinside
  · intro p
    by_cases hstart : p.schemaPath.head? = some Keyword.definitions.name
    · simp [Place.behind, SchemaPath.behind, hstart]
    · simp [Place.behind, SchemaPath.behind, hstart]
  · intro name p
    rfl

namespace Place

/-- The place at which a visit starts that is inside so many refs, when it is
told from there. -/
def origin (depth : Nat) : Place := ⟨[], [], depth⟩

theorem behind_origin (base : Place) :
    base.behind (origin base.depth) = base := by
  simp [behind, origin, SchemaPath.behind]

/-- The violation at `p`, which is told from a base.  Inside more refs than are
active at the base, the path in the schema is told from a definition already. -/
def violationBehind (base p : Place) : Violation :=
  ⟨base.instancePath ++ p.instancePath,
    if base.depth < p.depth then p.schemaPath
    else base.schemaPath ++ p.schemaPath⟩

/-- A place inside at least so many refs, and inside more of them exactly when
its path in the schema starts at a definition. -/
structure Framed (depth : Nat) (p : Place) : Prop where
  le : depth ≤ p.depth
  starts_iff : p.schemaPath.head? = some Keyword.definitions.name ↔
    depth < p.depth

variable {base p : Place} {depth : Nat}

theorem framed_origin (depth : Nat) : (origin depth).Framed depth :=
  ⟨Nat.le_refl _, by simp [origin]⟩

theorem Framed.violation_behind (hframed : p.Framed base.depth) :
    p.violation.behind base = base.violationBehind p := by
  simp only [Violation.behind, SchemaPath.behind, violation, violationBehind,
    hframed.starts_iff]

/-- The path in the schema goes on behind that of the base, or starts at a
definition. -/
theorem Framed.prefix_or (hframed : p.Framed base.depth) :
    base.schemaPath <+: (base.violationBehind p).schemaPath ∨
      [Keyword.definitions.name] <+: (base.violationBehind p).schemaPath := by
  by_cases hinside : base.depth < p.depth
  · right
    obtain ⟨rest, hrest⟩ :=
      List.head?_eq_some_iff.mp (hframed.starts_iff.mpr hinside)
    rw [violationBehind, if_pos hinside, hrest]
    exact List.prefix_append [_] rest
  · left
    rw [violationBehind, if_neg hinside]
    exact List.prefix_append _ _

end Place

def Part.place? : Part → Option Place
  | .clash place => some place
  | .dangling _ => none
  | .node n => some n.place

variable {limits : Limits} {root : Schema} {depth : Nat}

/-- Below a node, places stay framed. -/
theorem Node.Meets.framed {n : Node} {part : Part} {p : Place}
    (hmeets : n.Meets root part) (hframed : n.place.Framed depth)
    (hplace : part.place? = some p) : p.Framed depth := by
  by_cases href : ∃ name, n.schema.form = .ref name
  · obtain ⟨name, hform⟩ := href
    have hpart := mem_parts_iff.mpr hmeets
    cases htarget : root.definition? name with
    | none =>
        rw [parts_dangling hform htarget, List.mem_singleton] at hpart
        rw [hpart] at hplace
        cases hplace
    | some target =>
        rw [parts_ref hform htarget, List.mem_singleton] at hpart
        rw [hpart] at hplace
        cases hplace
        have hlt : depth < n.place.depth + 1 := Nat.lt_succ_of_le hframed.le
        exact ⟨Nat.le_of_lt hlt, iff_of_true rfl hlt⟩
  · have hform : ∀ name, n.schema.form ≠ .ref name := fun name hname =>
      href ⟨name, hname⟩
    have hdepth : p.depth = n.place.depth := by
      cases hmeets with
      | target hform' _ => exact absurd hform' (hform _)
      | dangling hform' _ => exact absurd hform' (hform _)
      | _ =>
          cases hplace
          rfl
    have hpath : part.schemaPath? = some p.schemaPath := by
      cases part with
      | clash place =>
          cases hplace
          rfl
      | dangling name => cases hplace
      | node c =>
          cases hplace
          rfl
    refine ⟨hdepth ▸ hframed.le, ?_⟩
    rw [hmeets.head?_eq_iff hform hpath, hdepth]
    exact hframed.starts_iff

/-- A part to which a visit to a node comes. -/
def Part.Below (root : Schema) (start : Node) (part : Part) : Prop :=
  part = .node start ∨ ∃ n, start.LeadsTo root n ∧ n.Meets root part

namespace Part.Below

variable {start n : Node} {part : Part} {p : Place}

theorem leadsTo (hbelow : (Part.node n).Below root start) :
    start.LeadsTo root n := by
  rcases hbelow with hstart | ⟨m, hleads, hmeets⟩
  · cases hstart
    exact .refl
  · exact hleads.tail hmeets

theorem of_meets (hbelow : (Part.node n).Below root start)
    (hmeets : n.Meets root part) :
    part.Below root start :=
  .inr ⟨n, hbelow.leadsTo, hmeets⟩

theorem framed (hbelow : part.Below root start)
    (hstart : start.place.Framed depth) (hplace : part.place? = some p) :
    p.Framed depth := by
  rcases hbelow with rfl | ⟨n, hleads, hmeets⟩
  · cases hplace
    exact hstart
  · have hnode : n.place.Framed depth := by
      clear hmeets
      induction hleads with
      | refl => exact hstart
      | tail _ hmeets ih => exact hmeets.framed ih rfl
    exact hmeets.framed hnode hplace

end Part.Below

namespace Carries

variable {root' : Schema} {move : Place → Place} {shift : Violation → Violation}
  {a : Agenda} {found : List Violation} {reason : Option Halt}

theorem translated (hcarries : Carries root root' move shift) (a : Agenda) :
    Agenda.Translated (fun n n' => n.relocate move = n') shift id a
      (a.relocate move shift) :=
  ⟨(hcarries.paired_relocate a.todo).imp fun _ _ => Part.Paired.translated, rfl⟩

/-- A run at other places ends with the same violations at the other places, and
for the same reason. -/
theorem ends (hcarries : Carries root root' move shift)
    (hends : Agenda.Ends limits root' a found reason) :
    Agenda.Ends limits root (a.relocate move shift)
      (found.map shift) reason := by
  have hmoved :=
    (hcarries.lockStep limits).translates.ends (hcarries.translated a) hends
  have hreason : reason.map (Halt.renamed id) = reason := by
    rcases reason with _ | halt
    · rfl
    · cases halt <;> rfl
  rwa [hreason] at hmoved

theorem exists_ends (hcarries : Carries root root' move shift)
    (hends : Agenda.Ends limits root (a.relocate move shift) found reason) :
    ∃ found reason, Agenda.Ends limits root' a found reason :=
  (hcarries.lockStep limits).translates.exists_ends
    (hcarries.translated a) hends

end Carries

namespace Agenda

variable {a : Agenda} {start : Node} {found behind : List Violation}
  {reason : Option Halt}

/-- A run puts what it finds behind what was found before, of which only the
number matters to it. -/
theorem Ends.exists_met (hends : Ends limits root a behind reason)
    (hbelow : ∀ part ∈ a.todo, part.Below root start) :
    ∃ met : List Place, behind = a.found ++ met.map Place.violation ∧
      (∀ p ∈ met, (Part.clash p).Below root start) ∧
      ∀ found, found.length = a.found.length →
        Ends limits root ⟨a.todo, found⟩ (found ++ met.map Place.violation)
          reason := by
  induction hends with
  | stop hstop =>
      cases hstop with
      | @errorLimit place todo found hlimit =>
          refine ⟨[place], rfl, ?_, ?_⟩
          · intro p hp
            rw [List.mem_singleton.mp hp]
            exact hbelow _ List.mem_cons_self
          · intro other hlength
            exact .stop (.errorLimit (hlength ▸ hlimit))
      | done =>
          refine ⟨[], by simp, by simp, ?_⟩
          intro other hlength
          rw [List.map_nil, List.append_nil]
          exact .stop .done
      | depthExceeded hdeep =>
          refine ⟨[], by simp, by simp, ?_⟩
          intro other hlength
          rw [List.map_nil, List.append_nil]
          exact .stop (.depthExceeded hdeep)
      | unresolvedRef =>
          refine ⟨[], by simp, by simp, ?_⟩
          intro other hlength
          rw [List.map_nil, List.append_nil]
          exact .stop .unresolvedRef
  | step hstep _ ih =>
      cases hstep with
      | @report place todo found hlimit =>
          obtain ⟨met, hbehind, hmet, hall⟩ :=
            ih fun part hpart => hbelow part (List.mem_cons_of_mem _ hpart)
          refine ⟨place :: met, ?_, ?_, ?_⟩
          · rw [hbehind, List.map_cons, List.append_assoc,
              List.singleton_append]
          · intro p hp
            rcases List.mem_cons.mp hp with rfl | hp
            · exact hbelow _ List.mem_cons_self
            · exact hmet p hp
          · intro other hlength
            have hrest := hall (other ++ [place.violation]) (by simp [hlength])
            rw [List.append_assoc, List.singleton_append] at hrest
            exact .step (.report (hlength ▸ hlimit)) hrest
      | @enter n todo found hdeep =>
          have henter : ∀ part ∈ n.parts root ++ todo,
              part.Below root start := by
            intro part hpart
            rcases List.mem_append.mp hpart with hpart | hpart
            · exact (hbelow _ List.mem_cons_self).of_meets
                (Node.mem_parts_iff.mp hpart)
            · exact hbelow part (List.mem_cons_of_mem _ hpart)
          obtain ⟨met, hbehind, hmet, hall⟩ := ih henter
          refine ⟨met, hbehind, hmet, ?_⟩
          intro other hlength
          exact .step (.enter hdeep) (hall other hlength)

/-- A run that may go on collecting stops for the number of its violations
exactly when it has as many as it may collect. -/
theorem Ends.errorLimit_iff (hends : Ends limits root a behind reason)
    (hfewer : limits.errorsReached a.found.length = false) :
    (reason = some .errorLimit ↔ limits.errorsReached behind.length = true) ∧
      (0 < limits.maxErrors → behind.length ≤ limits.maxErrors) := by
  induction hends with
  | stop hstop =>
      cases hstop with
      | errorLimit hlimit =>
          rw [List.length_append, List.length_singleton]
          refine ⟨iff_of_true rfl hlimit, ?_⟩
          intro hpos
          have hlt := (errorsReached_eq_false_iff hpos).mp hfewer
          exact hlt
      | _ =>
          refine ⟨iff_of_false (by simp) (by simp [hfewer]), ?_⟩
          intro hpos
          exact Nat.le_of_lt ((errorsReached_eq_false_iff hpos).mp hfewer)
  | step hstep _ ih =>
      apply ih
      cases hstep with
      | report hlimit =>
          rw [List.length_append, List.length_singleton]
          exact hlimit
      | enter hdeep => exact hfewer

end Agenda

section

variable {schema : Schema} {value : Json} {tag : Option String}
  {allowance : Nat} {place : Place}

/-- A visit that returns is a run. -/
theorem ends_of_visitor {found : Array Violation}
    (hreturns : (visitor limits root allowance schema value tag
      ⟨place, found⟩).2 ≠ some .endless) :
    Agenda.Ends limits root ⟨[.node ⟨place, schema, value, tag⟩], found.toList⟩
      (visitor limits root allowance schema value tag
        ⟨place, found⟩).1.found.toList
      (visitor limits root allowance schema value tag ⟨place, found⟩).2 := by
  rcases hrun : visitor limits root allowance schema value tag ⟨place, found⟩
    with ⟨walk, reason⟩
  rw [hrun] at hreturns
  have hfindings : Node.findings limits root allowance ⟨place, schema, value,
      tag⟩ found.toList =
      (walk.found.toList, reason) := by
    simp [Node.findings, Visit.findings, hrun]
  have hends := Agenda.performs_findings allowance _ _ [] _ _ hfindings hreturns
  cases reason with
  | none => exact hends.ends (.stop .done)
  | some halt => exact hends

/-- A visit that returns is back at its place, with the violations with which
its run ends. -/
theorem visitor_eq_of_ends {found : Array Violation} {more : List Violation}
    {reason : Option Halt}
    (hreturns : (visitor limits root allowance schema value tag
      ⟨place, found⟩).2 ≠ some .endless)
    (hends : Agenda.Ends limits root ⟨[.node ⟨place, schema, value, tag⟩],
      found.toList⟩
      (found.toList ++ more) reason) :
    visitor limits root allowance schema value tag ⟨place, found⟩ =
      (⟨place, found ++ more.toArray⟩, reason) := by
  obtain ⟨hfound, hreason⟩ := (ends_of_visitor hreturns).unique hends
  have hplace :=
    visitor_restores limits root allowance schema value tag ⟨place, found⟩
  rcases hrun : visitor limits root allowance schema value tag ⟨place, found⟩
    with ⟨⟨place', found'⟩, reason'⟩
  rw [hrun] at hfound hreason hplace
  cases hreason
  cases hplace
  have harray : found' = found ++ more.toArray := by
    rw [← Array.toList_inj, Array.toList_append]
    exact hfound
  rw [harray]

theorem relocate_origin (counted : List Violation) :
    Agenda.relocate place.behind (.behind place)
        ⟨[.node ⟨.origin place.depth, schema, value, tag⟩], counted⟩ =
      ⟨[.node ⟨place, schema, value, tag⟩], counted.map (.behind place)⟩ := by
  simp [Agenda.relocate, Part.relocate, Node.relocate, Place.behind_origin]

theorem below_of_mem_singleton {n : Node} : ∀ part ∈ [Part.node n],
    part.Below root n :=
  fun _ hpart => .inl (List.mem_singleton.mp hpart)

/-- A run from the origin is also a run from any place inside as many refs, and
behind as many violations. -/
theorem ends_behind {met : List Place} {counted found : List Violation}
    {reason : Option Halt}
    (hends : Agenda.Ends limits root
      ⟨[.node ⟨.origin place.depth, schema, value, tag⟩], counted⟩
      (counted ++ met.map Place.violation) reason)
    (hframed : ∀ p ∈ met, p.Framed place.depth)
    (hcount : found.length = counted.length) :
    Agenda.Ends limits root ⟨[.node ⟨place, schema, value, tag⟩], found⟩
      (found ++ met.map place.violationBehind) reason := by
  have hmoved := (carries_behind root place).ends hends
  rw [relocate_origin, List.map_append] at hmoved
  obtain ⟨met', hmet', -, hall⟩ := hmoved.exists_met below_of_mem_singleton
  have hsame : met'.map Place.violation = met.map place.violationBehind := by
    rw [← List.append_cancel_left hmet', List.map_map]
    apply List.map_congr_left
    intro p hp
    exact (hframed p hp).violation_behind
  rw [← hsame]
  exact hall found (by simpa using hcount)

/-- Where a run from some place ends, a run from the origin does. -/
theorem exists_ends_origin {counted found behind : List Violation}
    {reason : Option Halt}
    (hends : Agenda.Ends limits root ⟨[.node ⟨place, schema, value, tag⟩],
      found⟩ behind reason)
    (hcount : found.length = counted.length) :
    ∃ behind reason, Agenda.Ends limits root
      ⟨[.node ⟨.origin place.depth, schema, value, tag⟩], counted⟩
        behind reason := by
  obtain ⟨met, -, -, hall⟩ := hends.exists_met below_of_mem_singleton
  have hmoved := hall (counted.map (.behind place)) (by simp [hcount])
  rw [← relocate_origin] at hmoved
  exact (carries_behind root place).exists_ends hmoved

end

/-- The frame law.  A visit by a schema that returns, from a state in which more
violations may be collected, is back at its place and has put further violations
behind those found before; it has stopped for their number exactly if there are
as many as may be collected, and there are never more.  At which places they
are, told from the place where the visit started, depends on nothing else of
that state than the number of active refs and the number of violations. -/
theorem visitor_frame (limits : Limits) (root schema : Schema) (value : Json)
    (tag : Option String) (depth : Nat) {count : Nat}
    (hfewer : limits.errorsReached count = false) :
    ∃ (met : List Place) (reason : Option Halt),
      (∀ p ∈ met, p.Framed depth ∧ ∃ n,
        Node.LeadsTo root ⟨.origin depth, schema, value, tag⟩ n ∧
        n.Meets root (.clash p)) ∧
      (reason = some .errorLimit ↔
        limits.errorsReached (count + met.length) = true) ∧
      (0 < limits.maxErrors → count + met.length ≤ limits.maxErrors) ∧
      ∀ allowance place found, place.depth = depth → found.size = count →
        (visitor limits root allowance schema value tag ⟨place, found⟩).2 ≠
          some .endless →
        visitor limits root allowance schema value tag ⟨place, found⟩ =
            (⟨place, found ++ (met.map place.violationBehind).toArray⟩,
              reason) ∧
          ∀ v ∈ met.map place.violationBehind,
            place.instancePath <+: v.instancePath ∧
            (place.schemaPath <+: v.schemaPath ∨
              [Keyword.definitions.name] <+: v.schemaPath) := by
  let counted : List Violation := List.replicate count ⟨[], []⟩
  have hlength : counted.length = count := List.length_replicate
  by_cases hends : ∃ behind reason,
      Agenda.Ends limits root ⟨[.node ⟨.origin depth, schema, value, tag⟩],
        counted⟩ behind reason
  · obtain ⟨behind, reason, hends⟩ := hends
    obtain ⟨met, rfl, hmet, -⟩ := hends.exists_met below_of_mem_singleton
    obtain ⟨hlimit, hmost⟩ := hends.errorLimit_iff (hlength ▸ hfewer)
    rw [List.length_append, List.length_map, hlength] at hlimit hmost
    have hframed : ∀ p ∈ met, p.Framed depth := fun p hp =>
      (hmet p hp).framed (Place.framed_origin depth) rfl
    refine ⟨met, reason, ?_, hlimit, hmost, ?_⟩
    · intro p hp
      refine ⟨hframed p hp, ?_⟩
      rcases hmet p hp with hclash | hclash
      · cases hclash
      · exact hclash
    · intro allowance place found hdepth hcount hreturns
      subst hdepth
      refine ⟨?_, ?_⟩
      · exact visitor_eq_of_ends hreturns
          (ends_behind hends hframed (by simp [hcount, hlength]))
      · intro v hv
        obtain ⟨p, hp, rfl⟩ := List.mem_map.mp hv
        exact ⟨List.prefix_append _ _, (hframed p hp).prefix_or⟩
  · -- From no such state does the visit return, so that nothing is to be told
    -- of what it finds.
    refine ⟨[], none, by simp, by simp [hfewer], ?_, ?_⟩
    · intro hpos
      exact Nat.le_of_lt ((Agenda.errorsReached_eq_false_iff hpos).mp hfewer)
    · intro allowance place found hdepth hcount hreturns
      subst hdepth
      exact absurd (exists_ends_origin (ends_of_visitor hreturns)
        (by simp [hcount, hlength])) hends

/-- A visit inside one ref to the nodes of a tree, from two places and behind
two other violations. -/
theorem visitor_frame_labelledTree :
    Limits.errorsReached ⟨0, 4⟩ 1 = false ∧ ∃ met reason,
      visitor ⟨0, 4⟩ labelledTree 5 (.ofForm (.ref "tree")) mislabelledTree none
          ⟨⟨["a"], ["values"], 1⟩, #[⟨["b"], ["values"]⟩]⟩ =
        (⟨⟨["a"], ["values"], 1⟩,
          #[⟨["b"], ["values"]⟩] ++
            (List.map (Place.violationBehind ⟨["a"], ["values"], 1⟩)
              met).toArray⟩,
          reason) ∧
      visitor ⟨0, 4⟩ labelledTree 4 (.ofForm (.ref "tree")) mislabelledTree none
          ⟨⟨[], ["definitions", "tree"], 1⟩, #[⟨[], []⟩]⟩ =
        (⟨⟨[], ["definitions", "tree"], 1⟩,
          #[⟨[], []⟩] ++
            (List.map (Place.violationBehind ⟨[], ["definitions", "tree"], 1⟩)
              met).toArray⟩,
          reason) ∧
      met.length = 3 ∧ reason = some .errorLimit := by
  have hfewer : Limits.errorsReached ⟨0, 4⟩ 1 = false := by decide
  obtain ⟨met, reason, -, hlimit, hmost, hall⟩ :=
    visitor_frame ⟨0, 4⟩ labelledTree (.ofForm (.ref "tree")) mislabelledTree
      none 1 hfewer
  have hfirst :=
    (hall 5 ⟨["a"], ["values"], 1⟩ #[⟨["b"], ["values"]⟩] rfl rfl
      (by decide +kernel)).1
  have hsecond :=
    (hall 4 ⟨[], ["definitions", "tree"], 1⟩ #[⟨[], []⟩] rfl rfl
      (by decide +kernel)).1
  have hreason : reason = some .errorLimit :=
    (congrArg Prod.snd hfirst).symm.trans (by decide +kernel)
  have hreached :=
    (Agenda.errorsReached_eq_true_iff (by decide)).mp (hlimit.mp hreason)
  have hle : 1 + met.length ≤ 4 := hmost (by decide)
  exact ⟨hfewer, met, reason, hfirst, hsecond, by omega, hreason⟩

end SchemaForms
