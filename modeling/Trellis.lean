import Trellis.Canvas
import Trellis.Canvas.Paragraph
import Trellis.Color
import Trellis.Config
import Trellis.Definition.Build
import Trellis.Definition.Error
import Trellis.Definition.Path
import Trellis.Document.Datum
import Trellis.Document.Format
import Trellis.Document.Getters
import Trellis.Document.Json.Number
import Trellis.Document.Json.Quote
import Trellis.Document.Json.Reader
import Trellis.Document.Json.Token
import Trellis.Document.Source
import Trellis.Element.Accept
import Trellis.Element.Body
import Trellis.Element.Call
import Trellis.Event
import Trellis.Figure
import Trellis.Geometry
import Trellis.Host.Stage
import Trellis.Host.Views
import Trellis.Icon
import Trellis.Layout.Direction
import Trellis.Layout.Flex
import Trellis.Layout.Single
import Trellis.Look.Button
import Trellis.Look.Gauge
import Trellis.Look.Items
import Trellis.Look.Palette
import Trellis.Look.Text
import Trellis.Machine.Basic
import Trellis.Machine.Events
import Trellis.Machine.Picture
import Trellis.Machine.Run
import Trellis.Number
import Trellis.Observable.Binding
import Trellis.Observable.Value
import Trellis.Program
import Trellis.Proofs.Canvas.Answers
import Trellis.Proofs.Canvas.Moved
import Trellis.Proofs.Canvas.Related
import Trellis.Proofs.Color.Written
import Trellis.Proofs.Definition.Adding
import Trellis.Proofs.Definition.Building
import Trellis.Proofs.Definition.Flaws
import Trellis.Proofs.Definition.Listing
import Trellis.Proofs.Definition.Lookup
import Trellis.Proofs.Definition.Making
import Trellis.Proofs.Definition.Outcome
import Trellis.Proofs.Definition.Placed
import Trellis.Proofs.Definition.Spared
import Trellis.Proofs.Definition.Tree
import Trellis.Proofs.Document.Integers
import Trellis.Proofs.Element.Handle
import Trellis.Proofs.Figure.Shift
import Trellis.Proofs.Figure.Sized
import Trellis.Proofs.Figure.Transpose
import Trellis.Proofs.Figure.Tree
import Trellis.Proofs.Figure.Unseen
import Trellis.Proofs.Frame.Acts
import Trellis.Proofs.Frame.Calm
import Trellis.Proofs.Frame.Offers
import Trellis.Proofs.Frame.Unfold
import Trellis.Proofs.Frame.Updates
import Trellis.Proofs.Host.Calls
import Trellis.Proofs.Host.Delivery
import Trellis.Proofs.Host.Faithful
import Trellis.Proofs.Host.Ledger
import Trellis.Proofs.Host.Lifecycle
import Trellis.Proofs.Host.Mail
import Trellis.Proofs.Host.Outcome
import Trellis.Proofs.Host.Phase
import Trellis.Proofs.Host.Runs
import Trellis.Proofs.Host.Succession
import Trellis.Proofs.Host.Tasks
import Trellis.Proofs.Host.Undisturbed
import Trellis.Proofs.Input.Accepted
import Trellis.Proofs.Input.Confirmed
import Trellis.Proofs.Input.Language
import Trellis.Proofs.Input.Numbers
import Trellis.Proofs.Input.Visits
import Trellis.Proofs.Layout.Arranged
import Trellis.Proofs.Layout.Laid
import Trellis.Proofs.Layout.Shares
import Trellis.Proofs.Layout.Sharing
import Trellis.Proofs.List.Longest
import Trellis.Proofs.Look.Filled
import Trellis.Proofs.Look.Shown
import Trellis.Proofs.Machine.Permissive
import Trellis.Proofs.Machine.Respects
import Trellis.Proofs.Mirror.Accord
import Trellis.Proofs.Mirror.Acts
import Trellis.Proofs.Mirror.Avoids
import Trellis.Proofs.Mirror.Created
import Trellis.Proofs.Mirror.Equipped
import Trellis.Proofs.Mirror.Following
import Trellis.Proofs.Mirror.Outcome
import Trellis.Proofs.Mirror.Owed
import Trellis.Proofs.Mirror.Rebinding
import Trellis.Proofs.Mirror.Subscribed
import Trellis.Proofs.Mirror.Telling
import Trellis.Proofs.Mirror.Tied
import Trellis.Proofs.Mirror.Widget
import Trellis.Proofs.Mirror.Wired
import Trellis.Proofs.Mirror.WriteBack
import Trellis.Proofs.Notification.Agenda
import Trellis.Proofs.Notification.Awaited
import Trellis.Proofs.Notification.Circling
import Trellis.Proofs.Notification.Effect
import Trellis.Proofs.Notification.Phase
import Trellis.Proofs.Notification.Proposals
import Trellis.Proofs.Notification.Relay
import Trellis.Proofs.Notification.Rounds
import Trellis.Proofs.Notification.Setting
import Trellis.Proofs.Notification.Steps
import Trellis.Proofs.Notification.Still
import Trellis.Proofs.Notification.Told
import Trellis.Proofs.Number.Binary
import Trellis.Proofs.Number.Bits
import Trellis.Proofs.Number.Decimal
import Trellis.Proofs.Number.Double
import Trellis.Proofs.Number.Exact
import Trellis.Proofs.Number.Finite
import Trellis.Proofs.Number.Order
import Trellis.Proofs.Number.Product
import Trellis.Proofs.Number.Rounding
import Trellis.Proofs.Number.Whole
import Trellis.Proofs.Pointer.Alternation
import Trellis.Proofs.Pointer.Calls
import Trellis.Proofs.Pointer.Clicked
import Trellis.Proofs.Pointer.Turn
import Trellis.Proofs.Pointer.Turns
import Trellis.Proofs.Text.Breaks
import Trellis.Proofs.Text.Fitting
import Trellis.Proofs.Text.Parts
import Trellis.Proofs.Text.Spelled
import Trellis.Proofs.Text.Truncated
import Trellis.Proofs.Watching.Deeds
import Trellis.Proofs.Watching.Entered
import Trellis.Proofs.Watching.Past
import Trellis.Proofs.Watching.Steps
import Trellis.Proofs.Widget.Aside
import Trellis.Proofs.Widget.Items
import Trellis.Proofs.Widget.Locked
import Trellis.Proofs.Widget.Painted
import Trellis.Proofs.Widget.Report
import Trellis.Proofs.Widget.Slider
import Trellis.Proofs.World.Added
import Trellis.Proofs.World.Held
import Trellis.Proofs.World.Update
import Trellis.Registry.Basic
import Trellis.Registry.Builtin
import Trellis.Scenario.Run
import Trellis.Scenario.Step
import Trellis.Script.Action
import Trellis.Script.Sketch
import Trellis.Script.Value
import Trellis.Style.Constants
import Trellis.Style.InputType
import Trellis.Style.Named
import Trellis.Text.Blank
import Trellis.Text.Digit
import Trellis.Text.Exact
import Trellis.Text.Numeral
import Trellis.Text.Wrap
import Trellis.Ticker
import Trellis.World.Basic
import Trellis.World.Sight
