import Flowline.Text.Bytes

/-!
# Problems

What keeps a program from being compiled.  A `Diagnostic` is a refusal with its kind, the
construct it is about and a message.  A `Fault` is a step outside the domain of its operation,
such as a shift by a negative amount: there is no answer at all then, not even a list of refusals.

A run collects its problems in a `Report`, in the order in which they were found; independent
tables and stages are all reported.  A report with a fault in it means nothing else.
-/

namespace Flowline

/-- The kinds of refusal. -/
inductive Kind where
  | unsupported
  | invalidSlice
  | exhausted
  | malformedTable
  | structural
  | unknown
  deriving DecidableEq, Repr

namespace Kind

/-- The name of a kind in messages. -/
def name : Kind → Text
  | unsupported => "unsupported construct"
  | invalidSlice => "invalid slice annotation"
  | exhausted => "resource exhausted"
  | malformedTable => "malformed table"
  | structural => "structural error"
  | unknown => "unknown"

/-- The kinds that the compiler itself reports, in their fixed order. -/
def all : List Kind := [unsupported, invalidSlice, exhausted, malformedTable, structural]

end Kind

/-- A refusal.  The construct is the printed form of the offending piece of the program, and empty
if the refusal is about the program as a whole. -/
structure Diagnostic where
  kind : Kind
  construct : Text := ""
  reason : Text
  deriving DecidableEq, Repr

/-- The message of a refusal: its kind, its construct if there is one, and the reason. -/
def Diagnostic.message (d : Diagnostic) : Text :=
  if d.construct = "" then d.kind.name ++ ": " ++ d.reason
  else d.kind.name ++ ": " ++ d.construct ++ ": " ++ d.reason

/-- The ways in which a step can leave the domain of its operation. -/
inductive Fault where
  /-- A shift whose amount is negative or beyond all memory. -/
  | shiftAmount
  /-- A range of bits with a negative number of members. -/
  | spanLength
  /-- A search that never ends. -/
  | endlessSearch
  /-- A string literal that ends in the middle of an escape. -/
  | unfinishedEscape
  /-- Two nodes of one graph with the same number. -/
  | repeatedNode
  /-- A collection as a key among keys that must be compared. -/
  | compositeKey
  /-- A stage that applies a table which is not there. -/
  | missingTable
  /-- More stages than there are numbers, which is beyond all memory. -/
  | stageNumber
  deriving DecidableEq, Repr

/-- One thing that went wrong. -/
inductive Problem where
  /-- A message of its own kind. -/
  | plain (text : Text)
  | diagnostic (d : Diagnostic)
  /-- A problem found while working on something, named in front of its message. -/
  | within (context : Text) (inner : Problem)
  | fault (f : Fault)
  deriving DecidableEq, Repr

namespace Problem

/-- The text of a problem. -/
def message : Problem → Text
  | plain text => text
  | diagnostic d => d.message
  | within context inner => context ++ ": " ++ inner.message
  | fault .shiftAmount => "shift amount out of range"
  | fault .spanLength => "number of bits out of range"
  | fault .endlessSearch => "endless search"
  | fault .unfinishedEscape => "unfinished escape"
  | fault .repeatedNode => "repeated node"
  | fault .compositeKey => "composite key"
  | fault .missingTable => "missing table"
  | fault .stageNumber => "stage without a number"

/-- The refusal inside a problem. -/
def diagnostic? : Problem → Option Diagnostic
  | diagnostic d => some d
  | within _ inner => inner.diagnostic?
  | plain _ => none
  | fault _ => none

/-- The fault inside a problem. -/
def fault? : Problem → Option Fault
  | fault f => some f
  | within _ inner => inner.fault?
  | plain _ => none
  | diagnostic _ => none

/-- A refusal of the whole program. -/
def structural (reason : Text) : Problem := .diagnostic ⟨.structural, "", reason⟩

/-- A construct with no form on the switch. -/
def unsupported (construct reason : Text) : Problem := .diagnostic ⟨.unsupported, construct, reason⟩

end Problem

/-- The problems of a run, in the order in which they were found. -/
abbrev Report := List Problem

namespace Report

/-- The first fault of a report. -/
def fault? (r : Report) : Option Fault := r.findSome? Problem.fault?

/-- All messages of a report on one line. -/
def message (r : Report) : Text := "; ".intercalate (r.map Problem.message)

/-- Whether a report holds a refusal of a kind. -/
def hasKind (r : Report) (k : Kind) : Bool :=
  r.any fun p => p.diagnostic?.any fun d => d.kind == k

/-- The kinds of refusal in a report, in their fixed order. -/
def kinds (r : Report) : List Kind := Kind.all.filter r.hasKind

end Report

end Flowline
