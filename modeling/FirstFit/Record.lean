import FirstFit.Run
import FirstFit.Text.Numbers

namespace FirstFit

inductive Level where
  | info
  | debug
  | trace
  deriving DecidableEq, Repr

def Level.detail : Level → Nat
  | .info => 0
  | .debug => 1
  | .trace => 2

def Level.name : Level → String
  | .info => "INFO"
  | .debug => "DEBUG"
  | .trace => "TRACE"

inductive Record where
  | built (units : Nat)
  | allocated (run : Run) (source : Nat)
  | exhausted (size : Nat)
  | placed (run : Run)
  | released (run into : Run)
  deriving DecidableEq, Repr

namespace Record

def level : Record → Level
  | .built _ => .debug
  | _ => .trace

def message : Record → String
  | .built units => s!"unit free list over {units} units"
  | .allocated run source => s!"alloc {run.size} units at {run.start} (from a run of {source})"
  | .exhausted size => s!"alloc {size} units failed"
  | .placed run => s!"alloc {run.size} units at fixed {run.start}"
  | .released run into => s!"free {run.size} units at {run.start}, free run {into.interval}"

def line (r : Record) : String := r.level.name ++ " " ++ r.message

def shownAt (limit : Level) (r : Record) : Bool := r.level.detail ≤ limit.detail

def ofDebug (line : String) : Bool := Level.debug.name.toList.isPrefixOf line.toList

def read (line : String) : Option Record :=
  match Text.numbers line with
  | [n] => some (if ofDebug line then .built n else .exhausted n)
  | [size, start] => some (.placed ⟨start, size⟩)
  | [size, start, source] => some (.allocated ⟨start, size⟩ source)
  | [size, start, first, stop] => some (.released ⟨start, size⟩ ⟨first, stop - first⟩)
  | _ => none

end Record

end FirstFit
