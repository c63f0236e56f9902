import Classfile.AccessFlags
import Classfile.Attribute
import Classfile.Bytes
import Classfile.Class
import Classfile.Code.Body
import Classfile.Code.Body.Codec
import Classfile.Code.Body.Layout
import Classfile.Code.Cursor
import Classfile.Code.Edit
import Classfile.Code.Frame
import Classfile.Code.Relax
import Classfile.Code.Table
import Classfile.Command.Options
import Classfile.Command.Run
import Classfile.Command.Workspace
import Classfile.Constant
import Classfile.Descriptor
import Classfile.Error
import Classfile.Event
import Classfile.Field
import Classfile.Handle
import Classfile.Instruction
import Classfile.Instruction.Codec
import Classfile.Main
import Classfile.Method
import Classfile.ModifiedUtf8
import Classfile.OffsetTable
import Classfile.Opcode
import Classfile.Pool
import Classfile.Pool.Intern
import Classfile.Proofs.Abandonment
import Classfile.Proofs.Acceptance
import Classfile.Proofs.BodyForm
import Classfile.Proofs.BodyRoundTrip
import Classfile.Proofs.BodySoundness
import Classfile.Proofs.ClassRoundTrip
import Classfile.Proofs.ControlFlow
import Classfile.Proofs.Decoding
import Classfile.Proofs.DescriptorLanguage
import Classfile.Proofs.Encodability
import Classfile.Proofs.EncodedPositions
import Classfile.Proofs.EndlessRelaxation
import Classfile.Proofs.EntryTracing
import Classfile.Proofs.ExactLookup
import Classfile.Proofs.Extension
import Classfile.Proofs.FrameSettling
import Classfile.Proofs.FrameStates
import Classfile.Proofs.FrameTags
import Classfile.Proofs.History
import Classfile.Proofs.InstructionForm
import Classfile.Proofs.Interning
import Classfile.Proofs.IslandMargin
import Classfile.Proofs.IslandPlacement
import Classfile.Proofs.Labels
import Classfile.Proofs.LayoutGrowth
import Classfile.Proofs.LayoutOrder
import Classfile.Proofs.LayoutRank
import Classfile.Proofs.MemberForm
import Classfile.Proofs.NamedConstants
import Classfile.Proofs.NeutralInsertion
import Classfile.Proofs.Outcomes
import Classfile.Proofs.Passes
import Classfile.Proofs.PoolCodec
import Classfile.Proofs.PoolHistory
import Classfile.Proofs.Progress
import Classfile.Proofs.Prologue
import Classfile.Proofs.Readiness
import Classfile.Proofs.Reading
import Classfile.Proofs.References
import Classfile.Proofs.RelaxFixedPoint
import Classfile.Proofs.Removal
import Classfile.Proofs.Rereading
import Classfile.Proofs.RoundBound
import Classfile.Proofs.Running
import Classfile.Proofs.Searching
import Classfile.Proofs.Settling
import Classfile.Proofs.SingleExtension
import Classfile.Proofs.StackMaps
import Classfile.Proofs.StreamCodec
import Classfile.Proofs.SyncedLayout
import Classfile.Proofs.TableEncoding
import Classfile.Proofs.TableForm
import Classfile.Proofs.TargetResolution
import Classfile.Proofs.TextEncoding
import Classfile.Proofs.UnframedRelaxation
import Classfile.Proofs.WrittenSizes
import Classfile.Sorting
import Classfile.Task
import Classfile.Text.Hidden
import Classfile.Text.Quoted
import Classfile.Trace
import Classfile.Version
import Classfile.Proofs.Injection
import Classfile.Proofs.TracedEntries
