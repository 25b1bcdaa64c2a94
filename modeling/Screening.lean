import Screening.Algorithm
import Screening.Alignment
import Screening.Comparison
import Screening.Config.File
import Screening.Config.Load
import Screening.Config.Location
import Screening.Config.Numeral
import Screening.Config.Settings
import Screening.Country
import Screening.Engine
import Screening.Engine.Clock
import Screening.Engine.Ranking
import Screening.Engine.Request
import Screening.Engine.Run
import Screening.Entity
import Screening.Entity.Query
import Screening.Failure
import Screening.Feature.Declaration
import Screening.Feature.Evidence
import Screening.Feature.Extraction
import Screening.Gender
import Screening.Identifier
import Screening.IncompleteDate
import Screening.Name.Forms
import Screening.Name.Likeness
import Screening.Name.Resemblance
import Screening.Normalizer
import Screening.Phonetic.Letter
import Screening.Phonetic.Metaphone
import Screening.Phonetic.Soundex
import Screening.Replacement
import Screening.Replacement.Tables
import Screening.Scalar
import Screening.Schema.Builtin
import Screening.Schema.Catalog
import Screening.Schema.Declaration
import Screening.Score
import Screening.Score.Explained
import Screening.Score.Logistic
import Screening.Score.NameBased
import Screening.Score.NameQualified
import Screening.Similarity.EditDistance
import Screening.Similarity.Jaro
import Screening.Similarity.NameParts
import Screening.Sorting
import Screening.Text
import Screening.Text.Words
import Screening.TokenSet
import Screening.ValueType
import Screening.Proofs.Entity.Entries
import Screening.Proofs.Entity.FullNames
import Screening.Proofs.Engine.Chunk
import Screening.Proofs.Engine.Run
import Screening.Proofs.Engine.Batch
import Screening.Proofs.Scalar.Order
import Screening.Proofs.Alignment.Align
import Screening.Proofs.Scalar.Machine
import Screening.Proofs.Scalar.Exact
import Screening.Proofs.Scalar.Rounding
import Screening.Proofs.Scalar.Unpacked
import Screening.Proofs.Scalar.Packed
import Screening.Proofs.Scalar.Arithmetic
import Screening.Proofs.Alignment.Aggregate
import Screening.Proofs.Alignment.Raised
import Screening.Proofs.Score.Number
import Screening.Proofs.Engine.Best
import Screening.Proofs.Engine.Sound
import Screening.Proofs.Engine.Stop
import Screening.Proofs.Engine.Tally
import Screening.Proofs.Engine.Solo
import Screening.Proofs.Engine.Shuffle
import Screening.Proofs.Feature.Interruption
import Screening.Proofs.Engine.Refusal
import Screening.Proofs.Alignment.Mirrored
import Screening.Proofs.Feature.Bounds
import Screening.Proofs.Score.Passes
import Screening.Proofs.Score.Monotone
import Screening.Proofs.Score.Explained
import Screening.Proofs.Score.Bounds
import Screening.Proofs.Score.Weighing
import Screening.Proofs.Feature.Neutral
import Screening.Proofs.Alignment.Best
import Screening.Proofs.Feature.Memo
import Screening.Proofs.Feature.Afresh
import Screening.Proofs.Comparison.Dates
import Screening.Proofs.Feature.Itself
import Screening.Proofs.Score.Itself
import Screening.Proofs.Score.OwnDate
import Screening.Proofs.Schema.Walk
import Screening.Proofs.Schema.WellFormed
import Screening.Proofs.Engine.Agreement
import Screening.Proofs.Schema.Nearest
import Screening.Proofs.Schema.Lookup
import Screening.Proofs.Entity.Drafts
import Screening.Proofs.Config.Lines
import Screening.Proofs.Config.Quoted
import Screening.Proofs.Config.Sections
import Screening.Proofs.Config.List
import Screening.Proofs.Config.Location
import Screening.Proofs.Config.Load
import Screening.Proofs.Config.Timeout
import Screening.Proofs.Engine.Deadline
import Screening.Proofs.Engine.Counters
import Screening.Proofs.Engine.Exclusion
import Screening.Proofs.Engine.Considered
import Screening.Proofs.Entity.Prepared
import Screening.Proofs.Similarity.EditDistance
import Screening.Proofs.Similarity.Jaro
import Screening.Proofs.Similarity.SharedBytes
import Screening.Proofs.Similarity.EditShare
import Screening.Proofs.Text.Distinct
import Screening.Proofs.Similarity.NameParts
import Screening.Proofs.Text.Words
import Screening.Proofs.Text.Cleaned
import Screening.Proofs.Comparison.TokenSet
import Screening.Proofs.Name.Prepared
import Screening.Proofs.Name.Fingerprint
import Screening.Proofs.Name.Reordered
import Screening.Proofs.Name.Sounding
import Screening.Proofs.Name.Sameness
import Screening.Proofs.Alignment.Floor
import Screening.Proofs.Alignment.Lone
import Screening.Proofs.Score.NameOrder
import Screening.Proofs.Alignment.Half
import Screening.Proofs.Feature.BestPair
import Screening.Proofs.Text.Runs
import Screening.Proofs.Feature.ForeignNumbers
import Screening.Proofs.Replacement.Rewriting
import Screening.Proofs.Replacement.Settled
import Screening.Proofs.Phonetic.Soundex
import Screening.Proofs.Phonetic.Metaphone
import Screening.Proofs.Text.Trim
import Screening.Proofs.Text.Case
import Screening.Proofs.Country.Codes
import Screening.Proofs.Comparison.Countries
import Screening.Proofs.Comparison.Vessels
import Screening.Proofs.Identifier.WrittenOut
import Screening.Proofs.Identifier.LegalEntity
import Screening.Proofs.Identifier.Security
