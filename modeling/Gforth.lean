import Gforth.Lib.Alignment
import Gforth.Lib.Buckets
import Gforth.Lib.Bytes
import Gforth.Lib.Carries
import Gforth.Lib.Chains
import Gforth.Lib.Circles
import Gforth.Lib.Doubles
import Gforth.Lib.DoubleShifts
import Gforth.Lib.Files
import Gforth.Lib.Memory
import Gforth.Lib.Traces
import Gforth.Lib.Folds
import Gforth.Lib.Heaps
import Gforth.Lib.Programs
import Gforth.Lib.Reciprocal
import Gforth.Lib.Relax
import Gforth.Lib.Segments
import Gforth.Lib.Stacks
import Gforth.Selector.Tables
import Gforth.Selector.Labels
import Gforth.Selector.Automaton
import Gforth.Selector.Rewrite
import Gforth.Selector.Soundness
import Gforth.Selector.Sharing
import Gforth.Selector.Uncached
import Gforth.Selector.Optimality
import Gforth.Selector.Searches
import Gforth.Hash.Names
import Gforth.Hash.Keys
import Gforth.Streams.Stdio
import Gforth.Streams.ReadLine
import Gforth.Streams.Lines
import Gforth.Streams.Ungotten
import Gforth.Streams.Positions
import Gforth.Hash.Dictionary
import Gforth.Hash.Table
import Gforth.Hash.Agreement
import Gforth.Hash.Runs
import Gforth.Image.Relocation
import Gforth.Image.Sections
import Gforth.Image.RoundTrip
import Gforth.Image.Tags
import Gforth.Arith.MixedDivision
import Gforth.Arith.Staged
import Gforth.Arith.Floored
import Gforth.Arith.LongLong
import Gforth.Arith.Shifts
import Gforth.Arith.Loops
import Gforth.Compile.Words
import Gforth.Compile.Optimizers
import Gforth.Compile.Folding
import Gforth.Compile.Division
import Gforth.Compile.Preservation
import Gforth.Arith.PolyForth
import Gforth.Arith.Fallbacks
import Gforth.Arith.Ports
import Gforth.Arith.Comparisons
import Gforth.Control.Structures
import Gforth.Control.Leaves
import Gforth.Control.Runs
import Gforth.Blocks.Buffers
import Gforth.Blocks.Cache
import Gforth.Blocks.Following
import Gforth.Blocks.Included
import Gforth.Exceptions.Machine
import Gforth.Exceptions.Compiler
import Gforth.Exceptions.Semantics
import Gforth.Exceptions.Restore
import Gforth.Cilk.Tasks
import Gforth.Cilk.Sync
import Gforth.Lib.Recognizers
import Gforth.Lib.Words
import Gforth.Gray.Grammar
import Gforth.Gray.LookAhead
import Gforth.Gray.Sets
import Gforth.Gray.Parser
import Gforth.Numbers.Digits
import Gforth.Numbers.Conversion
import Gforth.Numbers.Restore
import Gforth.Numbers.Bodies
import Gforth.Numbers.Syntax
import Gforth.Numbers.Pictured
import Gforth.Numbers.HoldAreas
import Gforth.Numbers.Floats
import Gforth.Lib.ByteOrder
import Gforth.Lib.Utf8
import Gforth.Characters.Decoding
import Gforth.Characters.Encoding
import Gforth.Characters.Agreement
import Gforth.Characters.Garbage
import Gforth.Strings.Padding
import Gforth.Strings.Words
import Gforth.Strings.Buffers
import Gforth.Strings.Effects
import Gforth.Strings.Lists
import Gforth.Strings.Delete
import Gforth.Dictionary.Nesting
import Gforth.Streams.SavedInput
import Gforth.Streams.RestoredInput
import Gforth.Quotes.Dependence
import Gforth.BasicBlocks.Targets
import Gforth.Numbers.Printed
import Gforth.Numbers.Notation
import Gforth.Calendar.Days
import Gforth.Texts.Macros
import Gforth.Texts.Filenames
import Gforth.Pthreads.Barrier
import Gforth.Wrappers.Correctness
import Gforth.See.Literals
import Gforth.Objects.Dispatch
import Gforth.Locals.Lists
import Gforth.Characters.Keys
import Gforth.Skipping.Nesting
import Gforth.Ekey.Sequences
import Gforth.RiscV.RoundTrip
import Gforth.History.Navigation
import Gforth.Bidi.Levels
import Gforth.Editing.Runs
import Gforth.Lib.Moves
import Gforth.Lib.Code
import Gforth.Lib.Repetition
import Gforth.Vmgen.Generator
import Gforth.Vmgen.Machine
import Gforth.Vmgen.Effects
import Gforth.Vmgen.Locality
import Gforth.Vmgen.Spilling
import Gforth.Vmgen.Caching
import Gforth.Vmgen.Combined
import Gforth.Vmgen.Depths
import Gforth.Vmgen.Superinstructions
import Gforth.Vmgen.Temporaries
import Gforth.Vmgen.Exits
import Gforth.Regexp.Machine
import Gforth.Regexp.Compiler
import Gforth.Regexp.Layout
import Gforth.Regexp.Resolving
import Gforth.Regexp.Results
import Gforth.Regexp.Deciding
import Gforth.Regexp.Matching
import Gforth.Regexp.Blocks
import Gforth.Regexp.Language
import Gforth.Regexp.Bodies
