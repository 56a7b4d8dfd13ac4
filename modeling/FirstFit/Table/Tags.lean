import FirstFit.Table.Basic

namespace FirstFit.Table

def size (t : Table) (u : Int) : Except Fault Int := do
  let first ← t.entry u
  if first.isMulti then
    let after ← Checked.add u 1
    let second ← t.entry after
    return second.sizeField
  else
    return 1

def isFree : Table → Int → Except Fault Bool := inspect Word.isFree

def runBefore (t : Table) (u : Int) : Except Fault Int := do
  let above ← Checked.sub u 1
  let last ← t.entry above
  if last.isMulti then Checked.sub u last.sizeField else return above

def lastUnit (u size : Int) : Except Fault Int := do
  let stop ← Checked.add u size
  Checked.sub stop 1

def checkExtent (t : Table) (u size : Int) : Except Fault Unit :=
  if size < 1 then
    .error .badExtent
  else do
    let stop ← Checked.add u size
    if stop ≤ t.units then .ok () else .error .badExtent

def setSize (u size : Int) : Edit Unit := do
  ask (·.checkExtent u size)
  if size > 1 then
    modifyEntry u (Word.withMulti true)
    -- these two words are overwritten whole, the free bit of the last one with them
    let second ← compute (Checked.add u 1)
    setEntry second (Word.sizeTag size)
    let last ← compute (lastUnit u size)
    setEntry last (Word.sizeTag size)
  else
    modifyEntry u (Word.withMulti false)

def setFree (u : Int) (free : Bool) : Edit Unit := do
  let size ← ask (·.size u)
  modifyEntry u (Word.withFree free)
  if size > 1 then
    let last ← compute (lastUnit u size)
    modifyEntry last (Word.withFree free)

def arrives (t : Table) (goal : Int) : Nat → Int → Except Fault Bool
  -- a run has a unit or more: a cursor still short of the goal met a size of zero
  | 0, cursor => if cursor < goal then .error .endlessWalk else .ok (cursor == goal)
  | steps + 1, cursor =>
      if cursor < goal then do
        let size ← t.size cursor
        let after ← Checked.add cursor size
        t.arrives goal steps after
      else
        .ok (cursor == goal)

def startsRun (t : Table) (u : Int) : Except Fault Bool :=
  t.arrives u u.toNat 0

theorem isFree_of_covers {t : Table} {u : Int} (small : t.units ≤ Word.maxUnits) (h : t.Covers u) :
    t.isFree u = .ok (t.word u).isFree :=
  inspect_of_covers small h

theorem size_of_single {t : Table} {u : Int} (small : t.units ≤ Word.maxUnits) (h : t.Covers u)
    (single : (t.word u).isMulti = false) : t.size u = .ok 1 := by
  simp only [size, entry_of_covers small h]
  simp [bind, Except.bind, single, pure, Except.pure]

theorem size_of_multi {t : Table} {u : Int} (small : t.units ≤ Word.maxUnits) (h : t.Covers u)
    (h' : t.Covers (u + 1)) (multi : (t.word u).isMulti = true) :
    t.size u = .ok (t.word (u + 1)).sizeField := by
  have sum : Checked.Representable (u + 1) := by
    have low := h'.1
    have high := h'.2
    rw [Word.maxUnits_eq] at small
    exact ⟨by omega, by omega⟩
  simp only [size, entry_of_covers small h, Checked.add_of_representable sum]
  simp [bind, Except.bind, multi, entry_of_covers small h', pure, Except.pure]

theorem checkExtent_of_fits {t : Table} {u size : Int} (low : 1 ≤ size)
    (small : Checked.Representable (u + size)) (high : u + size ≤ t.units) :
    t.checkExtent u size = .ok () := by
  simp only [checkExtent, if_neg (Int.not_lt.2 low), Checked.add_of_representable small]
  simp [bind, Except.bind, high]

end FirstFit.Table
