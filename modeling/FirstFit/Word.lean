namespace FirstFit

abbrev Word := BitVec 32

namespace Word

def totalBits : Nat := 32

def unitBits : Nat := (totalBits - 2) / 2

-- all ones is the link of the head, and the position below the last unit needs a link too
def maxUnits : Nat := 1 <<< unitBits - 2

def prevShift : Nat := unitBits

def freeBit : Nat := totalBits - 1

def multiBit : Nat := totalBits - 2

def nextMask : Word := BitVec.ofNat 32 (1 <<< unitBits - 1)

def sizeMask : Word := nextMask

def prevMask : Word := nextMask <<< prevShift

def freeMask : Word := BitVec.twoPow 32 freeBit

def multiMask : Word := BitVec.twoPow 32 multiBit

def sentinel : Word := nextMask ||| prevMask

def isFree (w : Word) : Bool := w.getLsbD freeBit

def isMulti (w : Word) : Bool := w.getLsbD multiBit

def nextField (w : Word) : Word := w &&& nextMask

def prevField (w : Word) : Word := (w &&& prevMask) >>> prevShift

def sizeField (w : Word) : Int := (w &&& sizeMask).toNat

def withFree (free : Bool) (w : Word) : Word :=
  if free then w ||| freeMask else w &&& ~~~freeMask

def withMulti (multi : Bool) (w : Word) : Word :=
  if multi then w ||| multiMask else w &&& ~~~multiMask

def withNext (field w : Word) : Word := (w &&& ~~~nextMask) ||| field

def withPrev (field w : Word) : Word := (w &&& ~~~prevMask) ||| (field <<< prevShift)

def sizeTag (size : Int) : Word := multiMask ||| BitVec.ofInt 32 size

theorem maxUnits_eq : maxUnits = 32766 := rfl

theorem sentinel_isFree : isFree sentinel = false := rfl

theorem sentinel_isMulti : isMulti sentinel = false := rfl

end Word

end FirstFit
