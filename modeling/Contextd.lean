import Contextd.Daemon.ClientTable
import Contextd.Daemon.Concurrent
import Contextd.Daemon.ContextClient
import Contextd.Daemon.Demand
import Contextd.Daemon.KernelContext
import Contextd.Daemon.Message
import Contextd.Daemon.PigaHandler
import Contextd.Daemon.ProgramList
import Contextd.Daemon.Reload
import Contextd.Daemon.Session
import Contextd.Daemon.XmlContext
import Contextd.Daemon.XmlReading
import Contextd.Daemon.XmlSp
import Contextd.Data.Bookshelf
import Contextd.Data.CString
import Contextd.Data.Dom
import Contextd.Data.Encoding
import Contextd.Data.Grouping
import Contextd.Data.History
import Contextd.Data.Joining
import Contextd.Data.Language
import Contextd.Data.Memory
import Contextd.Data.MultiMap
import Contextd.Data.Number
import Contextd.Data.OrdMap
import Contextd.Data.Reshelving
import Contextd.Data.Sorting
import Contextd.Data.Traversal
import Contextd.Data.Worklist
import Contextd.Editor.ConfigurationStack
import Contextd.Editor.Levels
import Contextd.Editor.Session
import Contextd.Editor.Warnings
import Contextd.Execution
import Contextd.Kernel.Accounting
import Contextd.Kernel.Agreement
import Contextd.Kernel.Hooks
import Contextd.Kernel.Listing
import Contextd.Kernel.Liveness
import Contextd.Kernel.Monitoring
import Contextd.Kernel.Path
import Contextd.Kernel.PathBounds
import Contextd.Kernel.Preservation
import Contextd.Kernel.Protocol
import Contextd.Kernel.Punctual
import Contextd.Kernel.Registration
import Contextd.Kernel.Service
import Contextd.Kernel.Share
import Contextd.Kernel.Syscall
import Contextd.Kernel.Timed
import Contextd.Librecompare.Acceptance
import Contextd.Librecompare.Automaton
import Contextd.Librecompare.Bounds
import Contextd.Librecompare.Bracket
import Contextd.Librecompare.ByteSets
import Contextd.Librecompare.Construction
import Contextd.Librecompare.Denotation
import Contextd.Librecompare.Derivation
import Contextd.Librecompare.Derivative
import Contextd.Librecompare.Expression
import Contextd.Librecompare.Finiteness
import Contextd.Librecompare.InStep
import Contextd.Librecompare.Laws
import Contextd.Librecompare.Merging
import Contextd.Librecompare.Nullability
import Contextd.Librecompare.OneStep
import Contextd.Librecompare.Parser
import Contextd.Librecompare.Parsing
import Contextd.Librecompare.Reading
import Contextd.Librecompare.RegExp
import Contextd.Librecompare.Represents
import Contextd.Librecompare.Rests
import Contextd.Librecompare.RightDerivations
import Contextd.Librecompare.States
import Contextd.Librecompare.Syntax
import Contextd.Librecompare.Termination
import Contextd.Librecompare.Text
import Contextd.Librecompare.Tidiness
import Contextd.Machine
import Contextd.Plugin.Enforcement
import Contextd.Plugin.Firewall
import Contextd.Plugin.IPTableBlocker
import Contextd.Plugin.Killer
import Contextd.Plugin.RuleList
import Contextd.Plugin.SELinux
import Contextd.Policy.Arrangement
import Contextd.Policy.Coherence
import Contextd.Policy.Deciding
import Contextd.Policy.Decision
import Contextd.Policy.Description
import Contextd.Policy.Editor
import Contextd.Policy.Exchange
import Contextd.Policy.Integrity
import Contextd.Policy.Load
import Contextd.Policy.Numbering
import Contextd.Policy.Priority
import Contextd.Policy.ProgramVariable
import Contextd.Policy.Rebuilding
import Contextd.Policy.Reload
import Contextd.Policy.RoundTrip
import Contextd.Policy.Rule
import Contextd.Policy.Save
import Contextd.Policy.SourceDomains
import Contextd.Policy.Store
import Contextd.Selaudit.Accepted
import Contextd.Selaudit.Batches
import Contextd.Selaudit.Grammar
import Contextd.Selaudit.Lines
import Contextd.Selaudit.Meaning
import Contextd.Selaudit.Optimizer
import Contextd.Selaudit.Preservation
import Contextd.Selaudit.Printer
import Contextd.Selaudit.Rereading
import Contextd.Selaudit.Round
import Contextd.Selaudit.Scanner
import Contextd.Selaudit.Spelling
import Contextd.Selaudit.Token
import Contextd.Sync.ReadWriteLock
import Contextd.Sync.Semaphore
