import CodeEmission.Main
import CodeEmission.MappedBuffer
import CodeEmission.Files.Tree
import CodeEmission.Proofs.Maps
import CodeEmission.Proofs.Rounding
import CodeEmission.Proofs.Buffer.Growth
import CodeEmission.Proofs.Buffer.Following
import CodeEmission.Proofs.Buffer.Windows
import CodeEmission.Proofs.Layout.Steps
import CodeEmission.Proofs.Layout.Stream
import CodeEmission.Proofs.Layout.References
import CodeEmission.Proofs.Layout.Regions
import CodeEmission.Proofs.Layout.Following
import CodeEmission.Proofs.Layout.Errors
import CodeEmission.Proofs.Layout.Pools
import CodeEmission.Proofs.Layout.Places
import CodeEmission.Proofs.Layout.Defects
import CodeEmission.Proofs.Layout.Endings
import CodeEmission.Proofs.Emitter.Dependents
import CodeEmission.Proofs.Emitter.Attempt
import CodeEmission.Proofs.Emitter.Emission
import CodeEmission.Proofs.Emitter.Destinations
import CodeEmission.Proofs.Emitter.Later
import CodeEmission.Proofs.Emitter.Runs
import CodeEmission.Proofs.Emitter.Doubling
import CodeEmission.Proofs.Emitter.Transparency
import CodeEmission.Proofs.Emitter.Retries
import CodeEmission.Proofs.Emitter.Code
import CodeEmission.Proofs.Resolution.Stores
import CodeEmission.Proofs.Resolution.Fields
import CodeEmission.Proofs.Resolution.Patching
import CodeEmission.Proofs.Resolution.Records
import CodeEmission.Proofs.Resolution.Distances
import CodeEmission.Proofs.Resolution.Extents
import CodeEmission.Proofs.Resolution.Tables
import CodeEmission.Proofs.Resolution.Pass
import CodeEmission.Proofs.Resolution.Soundness
import CodeEmission.Proofs.Resolution.Faults
import CodeEmission.Proofs.Resolution.Targets
import CodeEmission.Proofs.Resolution.Success
import CodeEmission.Proofs.Resolution.Addresses
import CodeEmission.Proofs.Resolution.Progress
import CodeEmission.Proofs.Resolution.Incremental
import CodeEmission.Proofs.Resolution.Repair
import CodeEmission.Proofs.Versions.Changes
import CodeEmission.Proofs.Versions.Retained
import CodeEmission.Proofs.Versions.Committed
import CodeEmission.Proofs.Versions.Frozen
import CodeEmission.Proofs.Versions.Tables
import CodeEmission.Proofs.Versions.Pools
import CodeEmission.Proofs.Versions.Resolvable
import CodeEmission.Proofs.Versions.Replacement
import CodeEmission.Proofs.Batch.LastVersions
import CodeEmission.Proofs.Batch.Copies
import CodeEmission.Proofs.Batch.Reports
import CodeEmission.Proofs.Decoding.Reader
import CodeEmission.Proofs.Decoding.Operations
import CodeEmission.Proofs.Decoding.Stream
import CodeEmission.Proofs.Arena.Rollback
import CodeEmission.Proofs.Arena.Placements
import CodeEmission.Proofs.Buffer.Unbounded
import CodeEmission.Proofs.Buffer.Mapped
import CodeEmission.Proofs.Layout.Alignments
import CodeEmission.Proofs.Versions.Alignments
import CodeEmission.Proofs.Decoding.Restoration
import CodeEmission.Proofs.Data.Rearrangement
import CodeEmission.Proofs.Data.Values
import CodeEmission.Proofs.Data.Instructions
import CodeEmission.Proofs.Data.Survival
import CodeEmission.Proofs.Emitter.Policy
import CodeEmission.Proofs.Emitter.Chains
import CodeEmission.Proofs.Execution.TableEntries
import CodeEmission.Proofs.Emitter.Defects
import CodeEmission.Proofs.Types.Saturation
import CodeEmission.Proofs.Types.Leaves
import CodeEmission.Proofs.Types.Writing
import CodeEmission.Proofs.Resolution.Exact
import CodeEmission.Proofs.Resolution.Entries
import CodeEmission.Proofs.Decoding.References
import CodeEmission.Proofs.Emitter.Log
import CodeEmission.Proofs.Emitter.Occupancy
import CodeEmission.Proofs.Emitter.Space
import CodeEmission.Proofs.Layout.Positions
import CodeEmission.Proofs.Versions.Positions
