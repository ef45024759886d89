import ScriptMinifier.Delivery
import ScriptMinifier.Main
import ScriptMinifier.Proofs.Grammar
import ScriptMinifier.Proofs.Slashes
import ScriptMinifier.Proofs.Agreement
import ScriptMinifier.Proofs.Plan
import ScriptMinifier.Proofs.Gaps
import ScriptMinifier.Proofs.Tokens
import ScriptMinifier.Proofs.Rereading
import ScriptMinifier.Proofs.SecondRun
import ScriptMinifier.Proofs.Regions
import ScriptMinifier.Proofs.Brackets
import ScriptMinifier.Proofs.Trace
import ScriptMinifier.Proofs.Breaks
import ScriptMinifier.Proofs.Literals
import ScriptMinifier.Proofs.Digits
import ScriptMinifier.Proofs.Numbers
import ScriptMinifier.Proofs.Lookahead
import ScriptMinifier.Proofs.Merging
import ScriptMinifier.Proofs.Tiling
import ScriptMinifier.Proofs.LoadBearing
import ScriptMinifier.Proofs.Encoding
import ScriptMinifier.Proofs.ByteLexer
import ScriptMinifier.Proofs.Standing
import ScriptMinifier.Proofs.ByteScans
import ScriptMinifier.Proofs.ByteLiterals
import ScriptMinifier.Proofs.Boundaries
import ScriptMinifier.Proofs.Foresight
import ScriptMinifier.Proofs.LineLengths
import ScriptMinifier.Proofs.Margins
import ScriptMinifier.Proofs.TemplateParts
import ScriptMinifier.Proofs.Templates
import ScriptMinifier.Proofs.Strings
import ScriptMinifier.Proofs.Regexes
import ScriptMinifier.Proofs.Numerals
import ScriptMinifier.Proofs.NumberGrammar
import ScriptMinifier.Proofs.Faults
import ScriptMinifier.Proofs.DepthLimit
import ScriptMinifier.Proofs.Positions
import ScriptMinifier.Proofs.Spelling
import ScriptMinifier.Proofs.AllOrNothing
