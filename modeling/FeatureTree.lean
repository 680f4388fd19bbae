import FeatureTree.Tree.Indexer
import FeatureTree.Format.Binary.Writer
import FeatureTree.Format.SchemaJson
import FeatureTree.Format.SchemaText
import FeatureTree.Format.Wagon.Writer
import FeatureTree.Format.Hts.Reader
import FeatureTree.Sample
import FeatureTree.Proofs.Tree.TreeShape
import FeatureTree.Proofs.Tree.Building
import FeatureTree.Proofs.Text.Words
import FeatureTree.Proofs.Format.Wagon.Assembly
import FeatureTree.Proofs.Format.Wagon.Balance
import FeatureTree.Proofs.Stream.Reads
import FeatureTree.Proofs.Format.SchemaBlock
import FeatureTree.Proofs.Format.PropertyText
import FeatureTree.Proofs.Format.PropertyBlock
import FeatureTree.Proofs.Tree.Preorder
import FeatureTree.Proofs.Format.Binary.Numbering
import FeatureTree.Proofs.Format.Binary.Linking
import FeatureTree.Proofs.Format.Binary.Records
import FeatureTree.Proofs.Format.Binary.Restoring
import FeatureTree.Proofs.Format.Binary.Places
import FeatureTree.Proofs.Format.Binary.RoundTrip
import FeatureTree.Proofs.Format.Binary.Renumbering
import FeatureTree.Proofs.Format.Binary.Rewriting
import FeatureTree.Proofs.Stream.Delimited
import FeatureTree.Proofs.Format.Binary.Delimited
import FeatureTree.Proofs.Numeric.Digits
import FeatureTree.Proofs.Numeric.Rendering
import FeatureTree.Proofs.Text.Search
import FeatureTree.Proofs.Text.Tokens
import FeatureTree.Proofs.Format.Wagon.DecisionText
import FeatureTree.Proofs.Format.Wagon.LeafText
import FeatureTree.Proofs.Format.Wagon.Writing
import FeatureTree.Proofs.Tree.GrownOutline
import FeatureTree.Proofs.Format.Wagon.Reading
import FeatureTree.Proofs.Format.Wagon.RoundTrip
import FeatureTree.Proofs.Schema.Fitting
import FeatureTree.Proofs.Tree.Routing
import FeatureTree.Proofs.Tree.Grafting
import FeatureTree.Proofs.Tree.Links
import FeatureTree.Proofs.Tree.Forking
import FeatureTree.Proofs.Format.Hts.Steps
import FeatureTree.Proofs.Format.Hts.StateTree
import FeatureTree.Proofs.Format.Hts.Blocks
import FeatureTree.Proofs.Format.Hts.Files
import FeatureTree.Proofs.Format.Hts.Listing
import FeatureTree.Proofs.Format.Hts.Growth
import FeatureTree.Proofs.Format.Hts.Acceptance
import FeatureTree.Proofs.Tree.Route
import FeatureTree.Proofs.Tree.Filling
import FeatureTree.Proofs.Tree.Indexing
import FeatureTree.Proofs.Format.Wagon.Packing
import FeatureTree.Proofs.Tree.Agreement
import FeatureTree.Proofs.Format.Wagon.LineOrder
import FeatureTree.Proofs.Format.Wagon.Suffixes
import FeatureTree.Proofs.Format.Wagon.ValueNames
import FeatureTree.Proofs.Format.Wagon.Entries
import FeatureTree.Proofs.Symbol.HeaderLine
import FeatureTree.Proofs.Format.ParsedProperties
import FeatureTree.Proofs.Format.Wagon.GaussianLines
import FeatureTree.Proofs.Tree.Pushing
import FeatureTree.Proofs.Tree.Exploring
import FeatureTree.Proofs.Tree.Counting
import FeatureTree.Proofs.Tree.Collecting
import FeatureTree.Proofs.Format.SchemaText
import FeatureTree.Proofs.Schema.Lookup
import FeatureTree.Proofs.Schema.Consistency
import FeatureTree.Proofs.Schema.Encoding
import FeatureTree.Proofs.Format.Hts.Segments
import FeatureTree.Proofs.Format.Hts.Independence
import FeatureTree.Proofs.Stream.Offsets
import FeatureTree.Proofs.Format.Hts.PdfOffsets
import FeatureTree.Proofs.Numeric.Order
import FeatureTree.Proofs.Symbol.Prediction
import FeatureTree.Proofs.Tree.SinglePaths
import FeatureTree.Proofs.Tree.GraftLinks
import FeatureTree.Proofs.Tree.Bookkeeping
import FeatureTree.Proofs.Tree.Refusals
import FeatureTree.Proofs.Tree.GrownLinks
import FeatureTree.Proofs.Format.Wagon.TreeBuilding
