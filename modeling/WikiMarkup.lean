import WikiMarkup.CommandLine
import WikiMarkup.Forest.Integrity
import WikiMarkup.Main
import WikiMarkup.Proofs.Forest.Ancestry
import WikiMarkup.Proofs.Forest.Relinking
import WikiMarkup.Proofs.Forest.Operations
import WikiMarkup.Proofs.Forest.Calls
import WikiMarkup.Proofs.Forest.Advance
import WikiMarkup.Proofs.Forest.Rearrangement
import WikiMarkup.Proofs.Forest.Advancing
import WikiMarkup.Proofs.Generic.Narrowing
import WikiMarkup.Proofs.Generic.Tag
import WikiMarkup.Proofs.Generic.Group
import WikiMarkup.Proofs.Forest.Surroundings
import WikiMarkup.Proofs.Generic.Style
import WikiMarkup.Proofs.Text.Folding
import WikiMarkup.Proofs.Flow.Cleaning
import WikiMarkup.Proofs.Flow.Cleanup
import WikiMarkup.Proofs.Forest.Document
import WikiMarkup.Proofs.Forest.Linking
import WikiMarkup.Proofs.Normalization
import WikiMarkup.Proofs.Forest.ReadingOrder
import WikiMarkup.Proofs.Forest.Keeping
import WikiMarkup.Proofs.Generic.Becoming
import WikiMarkup.Proofs.Stages
import WikiMarkup.Proofs.Forest.Counting
import WikiMarkup.Proofs.Tracking
import WikiMarkup.Proofs.Changes
import WikiMarkup.Proofs.Content
import WikiMarkup.Proofs.Preformatted
import WikiMarkup.Proofs.Warnings
import WikiMarkup.Proofs.Outline
import WikiMarkup.Proofs.Flow.Sweeps
import WikiMarkup.Proofs.Flow.Spacing
import WikiMarkup.Proofs.Fates
import WikiMarkup.Proofs.Forest.Splicing
import WikiMarkup.Proofs.Forest.Placing
import WikiMarkup.Proofs.Flow.Rounds
import WikiMarkup.Proofs.Exchange
import WikiMarkup.Proofs.Generic.Scanning
import WikiMarkup.Proofs.Renumbering
import WikiMarkup.Proofs.Generic.Regrouping
import WikiMarkup.Proofs.Generic.Flattening
import WikiMarkup.Proofs.Forest.Traversal
import WikiMarkup.Proofs.Forest.Growth
import WikiMarkup.Proofs.Forest.Restoring
import WikiMarkup.Proofs.Itinerary
import WikiMarkup.Proofs.Forest.Climbing
