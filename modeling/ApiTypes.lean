import ApiTypes.Command.Session
import ApiTypes.Command.StyleConfig
import ApiTypes.Main
import ApiTypes.Proofs.Name
import ApiTypes.Proofs.Typing.Result
import ApiTypes.Proofs.Typing.Run
import ApiTypes.Proofs.Typing.Invariant
import ApiTypes.Proofs.Typing.Preserved
import ApiTypes.Proofs.Api.Chain
import ApiTypes.Proofs.Api.Plan
import ApiTypes.Proofs.Api.Part
import ApiTypes.Proofs.Api.Declared
import ApiTypes.Proofs.TypeExpr.Occurs
import ApiTypes.Proofs.Api.Assembly
import ApiTypes.Proofs.Api.Closure
import ApiTypes.Proofs.Api.Errors
import ApiTypes.Proofs.Meaning.Inhabits
import ApiTypes.Proofs.Meaning.Soundness
import ApiTypes.Proofs.Binary64.Ratio
import ApiTypes.Proofs.Reading.Lexer
import ApiTypes.Proofs.Reading.Literal
import ApiTypes.Proofs.Reading.Comment
import ApiTypes.Proofs.Reading.Number
import ApiTypes.Proofs.Reading.Grammar
import ApiTypes.Proofs.Finite
import ApiTypes.Proofs.Reading.Printable
import ApiTypes.Proofs.Reading.Types
import ApiTypes.Proofs.Reading.Declarations
import ApiTypes.Proofs.Loading
import ApiTypes.Proofs.TypeExpr.WellFormed
import ApiTypes.Proofs.Api.Collected
import ApiTypes.Proofs.Api.WellFormed
import ApiTypes.Proofs.Api.Bounded
import ApiTypes.Proofs.Typing.Bounded
import ApiTypes.Proofs.TypeExpr.Renamed
import ApiTypes.Proofs.Typing.Parallel
import ApiTypes.Proofs.Typing.Lockstep
import ApiTypes.Proofs.Api.Placement
import ApiTypes.Proofs.Meaning.Interpretation
import ApiTypes.Proofs.Meaning.Covered
import ApiTypes.Proofs.Meaning.Null
import ApiTypes.Proofs.Typing.Recorded
import ApiTypes.Proofs.Meaning.Agreement
import ApiTypes.Proofs.Api.Outline
import ApiTypes.Proofs.Api.Links
import ApiTypes.Proofs.Api.Optionality
import ApiTypes.Proofs.Typing.Exposed
import ApiTypes.Proofs.Api.Aliases
import ApiTypes.Proofs.Spelling
import ApiTypes.Proofs.Typing.SameShape
import ApiTypes.Proofs.Typing.Respelled
import ApiTypes.Proofs.Api.SamePlan
import ApiTypes.Proofs.Api.Respelled
import ApiTypes.Proofs.Escapes
import ApiTypes.Proofs.Displayed
import ApiTypes.Proofs.Index
import ApiTypes.Proofs.Naming
import ApiTypes.Proofs.Typing.SharedPath
import ApiTypes.Proofs.Typing.Calls
import ApiTypes.Proofs.TypeExpr.Size
import ApiTypes.Proofs.Typing.Load
import ApiTypes.Proofs.Typing.Settled
import ApiTypes.Proofs.Typing.EqualsItself
import ApiTypes.Proofs.Typing.Cost
import ApiTypes.Proofs.Typing.Tower
import ApiTypes.Proofs.Api.Cost
import ApiTypes.Proofs.Api.Seats
import ApiTypes.Proofs.Api.Size
import ApiTypes.Proofs.Api.Repeated
import ApiTypes.Proofs.Api.Expansions
import ApiTypes.Proofs.Formatting
import ApiTypes.Proofs.Api.Notes
import ApiTypes.Proofs.Command.Run
import ApiTypes.Proofs.Meaning.NullOnce
import ApiTypes.Proofs.Meaning.Discriminated
import ApiTypes.Proofs.Api.OneObject
import ApiTypes.Proofs.Meaning.ObjectMembers
import ApiTypes.Proofs.Meaning.Regrouped
import ApiTypes.Proofs.Reading.Key
import ApiTypes.Proofs.Reading.BlockComment
import ApiTypes.Proofs.OneLine
import ApiTypes.Proofs.DocLines
import ApiTypes.Proofs.Yaml
import ApiTypes.Proofs.Dangling
