import SchemaForms.Main
import SchemaForms.Schema.Equality
import SchemaForms.Proofs.Acceptance
import SchemaForms.Proofs.InstanceRuns
import SchemaForms.Proofs.Description
import SchemaForms.Proofs.RoundTrip
import SchemaForms.Proofs.Grammar
import SchemaForms.Proofs.NormalForm
import SchemaForms.Proofs.RefChains
import SchemaForms.Proofs.Locations
import SchemaForms.Proofs.Causes
import SchemaForms.Proofs.Loosening
import SchemaForms.Proofs.Branch
import SchemaForms.Proofs.Collection
import SchemaForms.Proofs.Inlining
import SchemaForms.Proofs.NeededDefinitions
import SchemaForms.Proofs.LookAlike
import SchemaForms.Proofs.PrettyText
import SchemaForms.Proofs.PrintedSchema
import SchemaForms.Proofs.Rounding
import SchemaForms.Proofs.IntegerTypes
import SchemaForms.Proofs.TimestampText
import SchemaForms.Proofs.Defects
import SchemaForms.Proofs.OpaqueNames
import SchemaForms.Proofs.AddedDefinition
import SchemaForms.Proofs.FrameLaw
import SchemaForms.Proofs.CompactText
import SchemaForms.Proofs.ReportReading
import SchemaForms.Proofs.ReportLines
import SchemaForms.Proofs.ReportFormat
