import CookbookAtlas.Lock.View
import CookbookAtlas.Main
import CookbookAtlas.Proofs.Attribute.Operators
import CookbookAtlas.Proofs.Dependency.Colours
import CookbookAtlas.Proofs.Execution.DepthLimit
import CookbookAtlas.Proofs.Execution.Loops
import CookbookAtlas.Proofs.Execution.Reach
import CookbookAtlas.Proofs.Execution.Reparse
import CookbookAtlas.Proofs.Execution.StackLoops
import CookbookAtlas.Proofs.Literal.Integers
import CookbookAtlas.Proofs.Locate.ProviderSplits
import CookbookAtlas.Proofs.Lock.RoundTrip
import CookbookAtlas.Proofs.Metadata.RoundTrip
import CookbookAtlas.Proofs.Path.Normalization
import CookbookAtlas.Proofs.Recipe.Attribution
import CookbookAtlas.Proofs.Recipe.KeyPaths
import CookbookAtlas.Proofs.Recipe.Partition
import CookbookAtlas.Proofs.Recipe.RoundTrip
import CookbookAtlas.Proofs.Recipe.Stack
import CookbookAtlas.Proofs.Recipe.Totality
import CookbookAtlas.Proofs.Session.Fetching
import CookbookAtlas.Proofs.Settings.Scratch
import CookbookAtlas.Proofs.Strategy.Installs
import CookbookAtlas.Proofs.Token.Positions
import CookbookAtlas.Proofs.Token.Quotation
import CookbookAtlas.Settings.View
