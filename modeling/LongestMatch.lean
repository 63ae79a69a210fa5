import LongestMatch.Table
import LongestMatch.Text.Escape
import LongestMatch.Text.Offset
import LongestMatch.Decimal.Shortest
import LongestMatch.Action.Stock
import LongestMatch.Nfa.Atoms
import LongestMatch.Nfa.Operators
import LongestMatch.Subset.Exploration
import LongestMatch.Nfa.Language
import LongestMatch.Dfa.Compile
import LongestMatch.Dfa.Match
import LongestMatch.Error
import LongestMatch.Pattern.Postfix
import LongestMatch.Pattern.Lexeme
import LongestMatch.Pattern.Builder
import LongestMatch.Pattern.Descent
import LongestMatch.Filter
import LongestMatch.Dfa.Dot
import LongestMatch.Trace
import LongestMatch.Proofs.Reach
import LongestMatch.Proofs.Partition
import LongestMatch.Proofs.Tables
import LongestMatch.Proofs.Trails
import LongestMatch.Proofs.Discovery
import LongestMatch.Proofs.Subsets
import LongestMatch.Proofs.Compiled
import LongestMatch.Proofs.Recognizers
import LongestMatch.Proofs.Links
import LongestMatch.Proofs.Embedding
import LongestMatch.Proofs.Operators
import LongestMatch.Proofs.Languages
import LongestMatch.Proofs.Atoms
import LongestMatch.Proofs.Construction
import LongestMatch.Proofs.Exactness
import LongestMatch.Proofs.Laws
import LongestMatch.Proofs.Assembly
import LongestMatch.Proofs.Lexing
import LongestMatch.Proofs.Effects
import LongestMatch.Proofs.Reading
import LongestMatch.Proofs.Meaning
import LongestMatch.Proofs.Longest
import LongestMatch.Proofs.Offsets
import LongestMatch.Proofs.Conservation
import LongestMatch.Proofs.Parsing
import LongestMatch.Proofs.Markers
import LongestMatch.Proofs.Outlines
import LongestMatch.Proofs.Marking
import LongestMatch.Proofs.Roles
import LongestMatch.Proofs.Sites
import LongestMatch.Proofs.Slots
import LongestMatch.Proofs.Tracks
import LongestMatch.Proofs.Occurrences
import LongestMatch.Proofs.Merging
import LongestMatch.Proofs.Structure
import LongestMatch.Proofs.Completion
import LongestMatch.Proofs.Priorities
import LongestMatch.Proofs.Shortest
import LongestMatch.Proofs.Reports
import LongestMatch.Proofs.Ties
import LongestMatch.Proofs.Likeness
import LongestMatch.Proofs.Interchange
import LongestMatch.Proofs.Combining
import LongestMatch.Proofs.ReadBack
import LongestMatch.Columns
import LongestMatch.Dfa.Recorder
import LongestMatch.Proofs.Recording
import LongestMatch.Proofs.Writes
import LongestMatch.Proofs.Representations
import LongestMatch.Proofs.Forms
import LongestMatch.Proofs.Depth
import LongestMatch.Proofs.InPlay
import LongestMatch.Proofs.Pending
import LongestMatch.Proofs.Listings
import LongestMatch.Proofs.Refusals
import LongestMatch.Proofs.Placements
import LongestMatch.Proofs.Ledger
import LongestMatch.Proofs.Flattening
import LongestMatch.Proofs.CharSets
import LongestMatch.Proofs.WorkList
import LongestMatch.Proofs.Descending
import LongestMatch.Proofs.Halting
import LongestMatch.Proofs.Repetition
import LongestMatch.Proofs.Enclosing
import LongestMatch.Proofs.Relocation
import LongestMatch.Proofs.Unclosed
import LongestMatch.Proofs.Faults
import LongestMatch.Proofs.Histories
import LongestMatch.Proofs.Closures
import LongestMatch.Proofs.Pruning
