import Asm65.Reference
import Asm65.Text.Case
import Asm65.Text.Decimal

/-!
# The log of a run

What a run tells about its progress.  Each event has a level of detail, and a run is asked
to show the events up to some level.
-/

namespace Asm65
namespace Log

inductive Level
  | error | warn | info | debug | trace
  deriving DecidableEq

namespace Level

/-- Levels are numbered from the gravest events to the most detailed. -/
def rank : Level -> Nat
  | .error => 1
  | .warn => 2
  | .info => 3
  | .debug => 4
  | .trace => 5

def text : Level -> String
  | .error => "ERROR"
  | .warn => "WARN"
  | .info => "INFO"
  | .debug => "DEBUG"
  | .trace => "TRACE"

def all : List Level :=
  [.error, .warn, .info, .debug, .trace]

/-- Reads the number of a level, or its name in either case. -/
def ofText? (s : String) : Option Level :=
  match Text.nat64? s with
  | some n => all.find? fun level => level.rank == n
  | none => all.find? fun level => level.text == Text.upper s

end Level

inductive Origin
  | program
  | inclusion
  | assembler
  deriving DecidableEq

def Origin.text : Origin -> String
  | .program => "mos6502_asm"
  | .inclusion => "mos6502_asm::prep"
  | .assembler => "mos6502_asm::asm"

inductive Event
  | started (input output : String)
  | including (path : String)
  | expanded (path : String) (lines : Nat)
  | sourceReady
  | tokensReady
  | assembling (lines : Nat)
  | moved (old new : UInt16)
  | defined (name : String) (address : UInt16)
  | deferred (kind : RefKind) (name : String) (offset : UInt16)
  | resolving (references : Nat)
  | patched (kind : RefKind) (name : String) (address offset : UInt16)
  | assembled (bytes labels : Nat)
  | symbol (name : String) (address : UInt16)
  | written (bytes : Nat)
  | finished
  | failed (report : String)
  deriving DecidableEq

namespace Event

def level : Event -> Level
  | .failed _ => .error
  | .started _ _ | .sourceReady | .tokensReady | .written _ | .finished => .info
  | .including _ | .expanded _ _ | .assembling _ | .resolving _ | .assembled _ _
  | .symbol _ _ => .debug
  | .moved _ _ | .defined _ _ | .deferred _ _ _ | .patched _ _ _ _ => .trace

def origin : Event -> Origin
  | .started _ _ | .sourceReady | .tokensReady | .symbol _ _ | .written _ | .finished
  | .failed _ => .program
  | .including _ | .expanded _ _ => .inclusion
  | .assembling _ | .moved _ _ | .defined _ _ | .deferred _ _ _ | .resolving _
  | .patched _ _ _ _ | .assembled _ _ => .assembler

/-- The text of an event; `elapsed` is the time that the event reports, if it reports one. -/
def message (elapsed : String) : Event -> String
  | .started input output => s!"assembling {input} into {output}"
  | .including path => s!"including {path}"
  | .expanded path lines => s!"preprocessed {path} into {lines} lines"
  | .sourceReady => s!"stage 1 - preprocessing done in {elapsed}"
  | .tokensReady => s!"stage 2 - lexical analysis done in {elapsed}"
  | .assembling lines => s!"assembling {lines} lines"
  | .moved old new =>
      "program counter moved from " ++ Hex.wordText old ++ " to " ++ Hex.wordText new
  | .defined name address => "defined label " ++ name ++ " at " ++ Hex.wordText address
  | .deferred kind name offset =>
      "deferred " ++ kind.text ++ " reference to " ++ name ++ " at " ++ Hex.wordText offset
  | .resolving references => s!"resolving {references} deferred label references"
  | .patched kind name address offset =>
      "patched " ++ kind.text ++ " reference to " ++ name ++ " (" ++ Hex.wordText address
        ++ ") at " ++ Hex.wordText offset
  | .assembled bytes labels => s!"assembled {bytes} bytes, {labels} labels"
  | .symbol name address => Hex.wordText address ++ " " ++ name
  | .written bytes => s!"stage 3 - parsing and assembling done in {elapsed} ({bytes} bytes)"
  | .finished => s!"task done in {elapsed}"
  | .failed report => report

end Event

def upTo (level : Level) (events : List Event) : List Event :=
  events.filter fun e => e.level.rank ≤ level.rank

end Log
end Asm65
