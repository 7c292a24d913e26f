import Parlance.CommandLine.Run
import Parlance.Document.Scalar
import Parlance.Main
import Parlance.Proofs.Document.Written
import Parlance.Session.Frames
import Parlance.Session.Pragmatics
import Parlance.Session.Shared
import Parlance.Session.Step
import Parlance.Session.Store
import Parlance.Session.Vocabulary
import Parlance.Proofs.Engine.RenderStep
import Parlance.Proofs.Engine.DiffStep
import Parlance.Proofs.Engine.Holding
import Parlance.Proofs.Engine.Protocol
import Parlance.Proofs.Engine.Standing
import Parlance.Proofs.Engine.Growth
import Parlance.Proofs.Engine.Painting
import Parlance.Proofs.Engine.Repainting
import Parlance.Proofs.Engine.Tidiness
import Parlance.Proofs.Engine.Upkeep
import Parlance.Proofs.Engine.Mending
import Parlance.Proofs.Engine.Idempotence
import Parlance.Proofs.Html.TagChildren
import Parlance.Proofs.Lexicon.Plain
import Parlance.Proofs.Lexicon.Agreement
import Parlance.Proofs.Lexicon.Spelling
import Parlance.Proofs.Engine.Expansion
import Parlance.Proofs.Schedule.Following
import Parlance.Proofs.Engine.Picture
import Parlance.Proofs.Engine.Freshness
import Parlance.Proofs.Engine.Dialects
import Parlance.Proofs.Engine.Listening
import Parlance.Proofs.Schedule.Forestry
import Parlance.Proofs.Schedule.Conservation
import Parlance.Proofs.Host.Accord
import Parlance.Proofs.Markup.Readback
import Parlance.Proofs.Markup.Order
import Parlance.Proofs.Engine.Restoring
import Parlance.Proofs.Engine.Sharing
import Parlance.Proofs.Lexicon.NormalForm
import Parlance.Proofs.Engine.Translation
import Parlance.Proofs.Engine.Chains
import Parlance.Proofs.Engine.Finishing
import Parlance.Proofs.Html.Developments
import Parlance.Proofs.Html.Documents
import Parlance.Proofs.Html.Acceptance
import Parlance.Proofs.Engine.References
import Parlance.Proofs.Engine.Inputs
import Parlance.Proofs.Pragmatics.Flattening
import Parlance.Proofs.Pragmatics.Facade
import Parlance.Proofs.Engine.Finding
import Parlance.Proofs.Engine.Locality
import Parlance.Proofs.Engine.Thrift
import Parlance.Proofs.Engine.Hollow
import Parlance.Proofs.Schedule.Refusal
import Parlance.Proofs.Schedule.Recovery
import Parlance.Proofs.Engine.Fitting
import Parlance.Proofs.Engine.Foresight
