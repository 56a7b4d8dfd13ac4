import FirstFit.Run
import FirstFit.Text.Numbers

namespace FirstFit

structure Summary where
  units : Nat
  free : List Run
  deriving DecidableEq, Repr

namespace Summary

def intervals : List Run → String
  | [] => ""
  | r :: rest => " " ++ r.interval ++ intervals rest

def line (s : Summary) : String :=
  toString s.units ++ " units, free:" ++ if s.free = [] then " none" else intervals s.free

def commaRanges : List Run → String
  | [] => ""
  | [r] => r.range
  | r :: rest => r.range ++ ", " ++ commaRanges rest

def compact (s : Summary) : String :=
  "UnitFreeList \x7b units: " ++ toString s.units ++ ", free: [" ++ commaRanges s.free ++ "] \x7d"

def rangeLines : List Run → String
  | [] => ""
  | r :: rest => "        " ++ r.range ++ ",\n" ++ rangeLines rest

def rangeBlock (free : List Run) : String :=
  if free = [] then "[]" else "[\n" ++ rangeLines free ++ "    ]"

def indented (s : Summary) : String :=
  "UnitFreeList \x7b\n    units: " ++ toString s.units ++ ",\n    free: " ++ rangeBlock s.free
    ++ ",\n\x7d"

def runsBetween : List Nat → Option (List Run)
  | [] => some []
  | [_] => none
  | start :: stop :: rest =>
      if start ≤ stop then (⟨start, stop - start⟩ :: ·) <$> runsBetween rest else none

def read (text : String) : Option Summary :=
  match Text.numbers text with
  | [] => none
  | units :: ends => (⟨units, ·⟩) <$> runsBetween ends

end Summary

end FirstFit
