import Bindery.Text.Basic
import Bindery.Heading
import Bindery.Selector
import Bindery.Path
import Bindery.Asset.Relocation
import Bindery.Html.Tag
import Bindery.Html.Typography
import Bindery.Html.Reference
import Bindery.Listing
import Bindery.Json.Printer
import Bindery.Json.Parser
import Bindery.Markdown.Document
import Bindery.Rendering.Productions
import Bindery.FileTree
import Bindery.Template.Evaluation
import Bindery.Page.Layout
import Bindery.Page.Plugin
import Bindery.Page.Wrap
import Bindery.Project.Bundle
import Bindery.Project.Config
import Bindery.Yaml.Value
import Bindery.CommandLine
import Bindery.Main
import Bindery.Proofs.Asset.Slots
import Bindery.Proofs.Asset.Token
import Bindery.Proofs.Text.Replace
import Bindery.Proofs.Listing
import Bindery.Proofs.Asset.Reachable
import Bindery.Proofs.Asset.Substitution
import Bindery.Proofs.Asset.Apart
import Bindery.Proofs.Path.Components
import Bindery.Proofs.Path.Normalize
import Bindery.Proofs.Path.Relative
import Bindery.Proofs.Path.Canonical
import Bindery.Proofs.Path.Way
import Bindery.Proofs.Asset.Placement
import Bindery.Proofs.Project.Run
import Bindery.Proofs.Rendering.References
import Bindery.Proofs.Rendering.Asked
import Bindery.Proofs.Asset.Descent
import Bindery.Proofs.Asset.Chains
import Bindery.Proofs.Asset.Sharing
import Bindery.Proofs.Asset.Aging
import Bindery.Proofs.Asset.Ancestry
import Bindery.Proofs.Asset.Record
import Bindery.Proofs.FileTree
import Bindery.Proofs.Project.Crawl
import Bindery.Proofs.Project.Operations
import Bindery.Proofs.Project.References
import Bindery.Proofs.Project.Agreement
import Bindery.Proofs.Project.Compilation
import Bindery.Proofs.Project.Cycle
import Bindery.Proofs.Project.Standing
import Bindery.Proofs.Project.Pages
import Bindery.Proofs.Project.Links
import Bindery.Proofs.Project.Exits
import Bindery.Proofs.Project.Regular
import Bindery.Proofs.Project.Effects
import Bindery.Proofs.Project.Nesting
import Bindery.Proofs.Project.Course
import Bindery.Proofs.Project.Depth
import Bindery.Proofs.Project.Sessions
import Bindery.Proofs.Project.Termination
import Bindery.Proofs.Project.Tokens
import Bindery.Proofs.Project.Destinations
import Bindery.Proofs.Project.EntryPage
import Bindery.Proofs.Project.Flight
import Bindery.Proofs.Asset.Funnel
import Bindery.Proofs.Project.Arrival
import Bindery.Proofs.Project.Copies
import Bindery.Proofs.Project.CopyOrder
import Bindery.Proofs.Project.Deposits
import Bindery.Proofs.Project.Touches
import Bindery.Proofs.Rendering.Mentions
import Bindery.Proofs.Rendering.Finished
import Bindery.Proofs.Rendering.Refinement
import Bindery.Proofs.Rendering.Inline
import Bindery.Proofs.Html.Flow
import Bindery.Proofs.Rendering.Markup
import Bindery.Proofs.Asset.Containment
import Bindery.Proofs.Asset.Overlay
import Bindery.Proofs.Asset.RelocatedTag
import Bindery.Proofs.Html.Attribute
import Bindery.Proofs.Html.FirstReference
import Bindery.Proofs.Html.Redirection
import Bindery.Proofs.Html.SelectorText
import Bindery.Proofs.Project.LinkOrder
import Bindery.Proofs.Agree
import Bindery.Proofs.Asset.Mirror
import Bindery.Proofs.Asset.Afresh
import Bindery.Proofs.Project.Alongside
import Bindery.Proofs.Asset.Holdings
import Bindery.Proofs.Project.Recopying
import Bindery.Proofs.Project.WrittenAgain
import Bindery.Proofs.Project.Waiting
import Bindery.Proofs.Project.Reused
import Bindery.Proofs.Selector.Splicing
import Bindery.Proofs.Rendering.Tightness
import Bindery.Proofs.Rendering.HeadingText
import Bindery.Proofs.Typography.Alignment
import Bindery.Proofs.Typography.Enclosed
import Bindery.Proofs.Typography.Tokens
import Bindery.Proofs.Selector.AttributeNames
import Bindery.Proofs.Typography.Direction
import Bindery.Proofs.Path.Destination
import Bindery.Proofs.Html.LocalTarget
import Bindery.Proofs.Page.Turns
import Bindery.Proofs.Project.Threading
import Bindery.Proofs.Page.Expressions
import Bindery.Proofs.Page.Content
import Bindery.Proofs.Markdown.Appended
import Bindery.Proofs.Listing.Reading
import Bindery.Proofs.HeadingId
import Bindery.Proofs.Path.Composition
import Bindery.Proofs.Path.Inverse
import Bindery.Proofs.Rendering.Appending
