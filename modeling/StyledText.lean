import StyledText.OrderedMap.Lemmas
import StyledText.Text.Coalesced
import StyledText.Text.Variable.Reading
import StyledText.Text.Variable.Update
import StyledText.Terminal.Screen
import StyledText.Markdown.Tree.OfEvents
import StyledText.Markdown.Conversion.Basic
import StyledText.Main
import StyledText.Proofs.Variable.Apart
import StyledText.Proofs.Variable.Coalesced
import StyledText.Proofs.Terminal.Lines
import StyledText.Proofs.Conversion.Fault
import StyledText.Proofs.Conversion.Substitution
import StyledText.Proofs.Tree.Arena
import StyledText.Proofs.Tree.Growth
import StyledText.Proofs.Tree.Siblings
import StyledText.Proofs.Conversion.Texts
import StyledText.Proofs.Conversion.Kept
import StyledText.Proofs.Variable.Names
import StyledText.Proofs.Variable.Torn
import StyledText.Proofs.Variable.Shown
import StyledText.Proofs.Variable.Inserted
import StyledText.Proofs.Html.Comment
import StyledText.Proofs.Html.BlockEnds
import StyledText.Proofs.Conversion.Breaks
import StyledText.Proofs.Tree.Loose
import StyledText.Proofs.Numeral.Letters
import StyledText.Proofs.Numeral.Roman
import StyledText.Proofs.Conversion.Leads
import StyledText.Proofs.Conversion.Fonts
import StyledText.Proofs.Conversion.Markers
import StyledText.Proofs.Attribute.RawMarkup
import StyledText.Proofs.Terminal.Marks
import StyledText.Proofs.Terminal.Rows
import StyledText.Proofs.Terminal.Coalesced
import StyledText.Proofs.Conversion.ListStyle
import StyledText.Proofs.Conversion.Lookups
import StyledText.Proofs.Command.Listing
import StyledText.Proofs.Variable.Spans
import StyledText.Proofs.Html.Containers
import StyledText.Proofs.Tree.OpenNodes
