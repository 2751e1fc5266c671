import LibHSC.Operation
import LibHSC.Lia.Normal
import LibHSC.Event
import LibHSC.Manager
import LibHSC.Inverse
import LibHSC.Saturate
import LibHSC.Cegar.Classifier
import LibHSC.Cegar.Learner
import LibHSC.Cegar.Loop
import LibHSC.Cegar.Soundness
import LibHSC.Cegar.Certcheck
import LibHSC.Cegar.Canonical
import LibHSC.Cegar.Observation
import LibHSC.Cegar.Refine
import LibHSC.Cegar.Profile
import LibHSC.Cegar.Progress
import LibHSC.Lia.Held
import LibHSC.Lia.Commute
import LibHSC.Surface.Parser
import LibHSC.Surface.Reader
import LibHSC.Surface.XplBuild
import LibHSC.Surface.CegarBuild
import LibHSC.Surface.CegarEvent
import LibHSC.Surface.CegarExact
import LibHSC.Library.Levels
import LibHSC.Library.OpenTable
import LibHSC.Library.Refinement
import LibHSC.Xpl.Eval
import LibHSC.Xpl.Fire
import LibHSC.Xpl.Store
import LibHSC.Xpl.Engine
import LibHSC.Lia.Reads
import LibHSC.Lia.Subst
import LibHSC.Xpl.Domains
import LibHSC.Xpl.DomainsLattice
import LibHSC.Xpl.DomainsWalk
import LibHSC.Xpl.DomainsSound
import LibHSC.Library.Links
import LibHSC.Mem.Cache
import LibHSC.Mem.CacheRep
import LibHSC.Mem.CacheMemo
import LibHSC.Mem.CacheRun
import LibHSC.Mem.Intern
import LibHSC.Mem.InternInv
import LibHSC.Mem.InternCollect
import LibHSC.Mem.InternRun
import LibHSC.Library.Paths
import LibHSC.Ctl.Formula
import LibHSC.Ctl.Semantics
import LibHSC.Ctl.Quantifiers
import LibHSC.Ctl.Forward
import LibHSC.Ctl.Checker
import LibHSC.Ctl.Sound
import LibHSC.Ctl.Denote
import LibHSC.Ctl.Translator
import LibHSC.Ctl.Deadlocks
import LibHSC.Ctl.Partial
import LibHSC.Surface.SpecRead
import LibHSC.Surface.Analyze
import LibHSC.Surface.Session
import LibHSC.Surface.Certified
import LibHSC.Surface.Batches
import LibHSC.Library.Agree
import LibHSC.Surface.Numerals
import LibHSC.Surface.Declarations
import LibHSC.Surface.DeclareDomains
import LibHSC.Surface.DeclareNeutral
import LibHSC.Surface.DeclareSeeds
import LibHSC.Surface.DeclareRun
import LibHSC.Outcome
import LibHSC.SumAt
import LibHSC.Fuel
import LibHSC.Pointwise
import LibHSC.Splits
import LibHSC.SplitExact
import LibHSC.PointwiseCase
import LibHSC.Additivity
import LibHSC.Steady
import LibHSC.Deflate
import LibHSC.HasImage
import LibHSC.CycleWitness
import LibHSC.Ctl.Hull
import LibHSC.Ctl.NormalForm
import LibHSC.Ctl.Exact
import LibHSC.Ctl.Answer
import LibHSC.Ctl.Settled
import LibHSC.Ctl.Verdict
import LibHSC.Lia.Negations
import LibHSC.Xpl.Guards
import LibHSC.Surface.Emitted
import LibHSC.Surface.Letters
import LibHSC.Lia.Machine
import LibHSC.Xpl.Exact
import LibHSC.Surface.MayFire
import LibHSC.Trace.Path
import LibHSC.LocalTerms
import LibHSC.AtomGuard
import LibHSC.Surface.Atoms
import LibHSC.Library.Memo
import LibHSC.Words
import LibHSC.Linear.Dead
import LibHSC.Surface.Backward
import LibHSC.Library.Distributions
import LibHSC.Surface.WeightedCount
import LibHSC.Library.Visit
import LibHSC.Places
import LibHSC.Order.Domains
import LibHSC.Surface.MaxQueries
import LibHSC.Library.Tables
import LibHSC.Linear.Constraint
import LibHSC.Linear.Knapsack
import LibHSC.Linear.Conjunction
import LibHSC.Linear.Box
import LibHSC.Linear.Equality
import LibHSC.Library.Shortlex
import LibHSC.Cegar.Presentation
import LibHSC.Cegar.Inclusion
import LibHSC.Dve.Lexer
import LibHSC.Dve.Parser
import LibHSC.Dve.Ends
import LibHSC.Dve.Grammar
import LibHSC.Surface.Tokens
import LibHSC.Surface.Stream
import LibHSC.Dve.Translate
import LibHSC.Dve.Reading
import LibHSC.Dve.TranslateSound
import LibHSC.Fsp.GroundExact
import LibHSC.Accumulator
import LibHSC.Lia.Outcomes
import LibHSC.Lia.Built
import LibHSC.Lia.Shift
import LibHSC.Library.Worklist
import LibHSC.Order.Bandwidth
import LibHSC.Order.Sloan
import LibHSC.Order.Force
import LibHSC.Surface.Reorder
import LibHSC.Library.PetriNets
import LibHSC.Surface.Spelling
import LibHSC.Surface.LinearForms
import LibHSC.Petri.Net
import LibHSC.Petri.ToSurface
import LibHSC.Petri.Spelled
import LibHSC.Petri.Effects
import LibHSC.Petri.Emission
import LibHSC.Petri.Engine
import LibHSC.Petri.Firing
import LibHSC.Petri.Props
import LibHSC.Petri.PropsSound
import LibHSC.Petri.Abstract
import LibHSC.Petri.Markable
import LibHSC.Petri.Approx
import LibHSC.Petri.ApproxPass
