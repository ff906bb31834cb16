import JsonEmbed.Main
import JsonEmbed.Proofs.Agreement
import JsonEmbed.Proofs.ArrayTags
import JsonEmbed.Proofs.Batch
import JsonEmbed.Proofs.Collisions
import JsonEmbed.Proofs.ConfigurationReading
import JsonEmbed.Proofs.ConfigurationTexts
import JsonEmbed.Proofs.ConfigurationWriting
import JsonEmbed.Proofs.Confinement
import JsonEmbed.Proofs.Creation
import JsonEmbed.Proofs.Declarations
import JsonEmbed.Proofs.Decoding
import JsonEmbed.Proofs.Delivery
import JsonEmbed.Proofs.Denotation
import JsonEmbed.Proofs.EffectiveOptions
import JsonEmbed.Proofs.Encoding
import JsonEmbed.Proofs.Entries
import JsonEmbed.Proofs.ExactReading
import JsonEmbed.Proofs.Expansions
import JsonEmbed.Proofs.Failures
import JsonEmbed.Proofs.Faithful
import JsonEmbed.Proofs.Fractions
import JsonEmbed.Proofs.GivenPaths
import JsonEmbed.Proofs.Identifiers
import JsonEmbed.Proofs.IdentityQuery
import JsonEmbed.Proofs.Indentation
import JsonEmbed.Proofs.Independence
import JsonEmbed.Proofs.IntegerTexts
import JsonEmbed.Proofs.Leaves
import JsonEmbed.Proofs.Limits
import JsonEmbed.Proofs.LineStructure
import JsonEmbed.Proofs.Lines
import JsonEmbed.Proofs.LiteralPaths
import JsonEmbed.Proofs.LiteralTokens
import JsonEmbed.Proofs.Members
import JsonEmbed.Proofs.Nearest
import JsonEmbed.Proofs.NumberText
import JsonEmbed.Proofs.Numerals
import JsonEmbed.Proofs.OptionEffects
import JsonEmbed.Proofs.OutputNames
import JsonEmbed.Proofs.Places
import JsonEmbed.Proofs.PlainNames
import JsonEmbed.Proofs.Pointers
import JsonEmbed.Proofs.Pruning
import JsonEmbed.Proofs.Quotation
import JsonEmbed.Proofs.Range
import JsonEmbed.Proofs.Reaching
import JsonEmbed.Proofs.Reports
import JsonEmbed.Proofs.Representation
import JsonEmbed.Proofs.RoundTrip
import JsonEmbed.Proofs.Rounding
import JsonEmbed.Proofs.Shapes
import JsonEmbed.Proofs.ShortestDecimal
import JsonEmbed.Proofs.Slots
import JsonEmbed.Proofs.Spelling
import JsonEmbed.Proofs.Storage
import JsonEmbed.Proofs.StringLiterals
import JsonEmbed.Proofs.StringTexts
import JsonEmbed.Proofs.Targets
import JsonEmbed.Proofs.UsableNames
import JsonEmbed.Proofs.Wildcards
