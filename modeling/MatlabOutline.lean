import MatlabOutline.Main
import MatlabOutline.Request
import MatlabOutline.Proofs.Characters
import MatlabOutline.Proofs.HeaderSearch
import MatlabOutline.Proofs.Nesting
import MatlabOutline.Proofs.HeaderPattern
import MatlabOutline.Proofs.KeywordStream
import MatlabOutline.Proofs.Extent
import MatlabOutline.Proofs.HeaderCoverage
import MatlabOutline.Proofs.Balance
import MatlabOutline.Proofs.BlockNesting
import MatlabOutline.Proofs.Printing
import MatlabOutline.Proofs.PrintedHeaders
import MatlabOutline.Proofs.PrintedBlocks
import MatlabOutline.Proofs.RoundTrip
import MatlabOutline.Proofs.Lookahead
import MatlabOutline.Proofs.SkippedText
import MatlabOutline.Proofs.UnclosedFunctions
import MatlabOutline.Proofs.LineBreaks
import MatlabOutline.Proofs.CommentedFunctions
import MatlabOutline.Proofs.Relocation
import MatlabOutline.Proofs.Translation
import MatlabOutline.Proofs.LineEndHeaders
import MatlabOutline.Proofs.LineEndScan
import MatlabOutline.Proofs.FileTrees
import MatlabOutline.Proofs.LineEndInvariance
import MatlabOutline.Proofs.PageNames
import MatlabOutline.Proofs.WrittenPages
import MatlabOutline.Proofs.ClampedEnds
import MatlabOutline.Proofs.Renesting
import MatlabOutline.Proofs.Statements
import MatlabOutline.Proofs.TransparentBodies
import MatlabOutline.Proofs.HeaderLayouts
import MatlabOutline.Proofs.DotsAhead
import MatlabOutline.Proofs.ContinuationTails
import MatlabOutline.Proofs.ListedFunctions
import MatlabOutline.Proofs.RepeatedRuns
import MatlabOutline.Proofs.ReachablePlaces
import MatlabOutline.Proofs.SourceSearch
import MatlabOutline.Proofs.DirectoryRuns
import MatlabOutline.Proofs.ShortestBlock
import MatlabOutline.Proofs.DescribedFunctions
import MatlabOutline.Proofs.CommentSigns
import MatlabOutline.Proofs.ContinuedHeaders
import MatlabOutline.Proofs.DetectedDialects
import MatlabOutline.Proofs.FallbackWarnings
import MatlabOutline.Proofs.BlockLocality
import MatlabOutline.Proofs.CommentSearch
import MatlabOutline.Proofs.PageMarkup
import MatlabOutline.Proofs.NestedSources
import MatlabOutline.Proofs.UnambiguousListing
import MatlabOutline.Proofs.FoundSources
import MatlabOutline.Proofs.SystemRoots
