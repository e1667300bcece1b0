import Stencil.Engine
import Stencil.Json.Reader
import Stencil.Template.Index
import Stencil.Template.Outline
import Stencil.Proofs.Cache.Transparency
import Stencil.Proofs.Cache.Once
import Stencil.Proofs.Cache.Bookkeeping
import Stencil.Proofs.Cache.Staleness
import Stencil.Proofs.Parsing.Nesting
import Stencil.Proofs.Parsing.Sources
import Stencil.Proofs.Parsing.Inline
import Stencil.Proofs.Parsing.Cycles
import Stencil.Proofs.Parsing.Printing
import Stencil.Proofs.Parsing.Comments
import Stencil.Proofs.Session.Meaning
import Stencil.Proofs.Session.Order
import Stencil.Proofs.Session.Injection
import Stencil.Proofs.Parsing.Positions
import Stencil.Proofs.Parsing.Leftover
import Stencil.Proofs.Template.Indices
import Stencil.Proofs.Session.Completeness
import Stencil.Proofs.Cache.Capacity
import Stencil.Proofs.Escaping.Script
import Stencil.Proofs.Session.Frame
import Stencil.Proofs.Session.Repetitions
import Stencil.Proofs.Source.Search
import Stencil.Proofs.Source.Confinement
import Stencil.Proofs.Parsing.Usability
import Stencil.Proofs.Session.DottedNames
import Stencil.Proofs.Markup.Blocks
import Stencil.Proofs.Parsing.Ranges
