import FirstFit.Table.Basic

namespace FirstFit.Table

def linkAt (get : Word → Word) : Table → Int → Except Fault Int :=
  inspect fun w => Link.decode (get w)

def next : Table → Int → Except Fault Int := linkAt Word.nextField

def prev : Table → Int → Except Fault Int := linkAt Word.prevField

def checkLink (t : Table) (link : Int) (fault : Fault) : Except Fault Unit :=
  if t.Covers link then .ok () else .error fault

def setLink (fault : Int → Fault) (set : Word → Word → Word) (u link : Int) : Edit Unit := do
  ask (·.checkLink link (fault link))
  modifyEntry u (set (Link.encode link))

def setNext : Int → Int → Edit Unit := setLink .nextOutOfRange Word.withNext

def setPrev : Int → Int → Edit Unit := setLink .prevOutOfRange Word.withPrev

def unlink (u : Int) : Edit Unit := do
  let next ← ask (·.next u)
  let prev ← ask (·.prev u)
  setNext prev next
  setPrev next prev

def linkBy (set : Word → Word → Word) (t : Table) (u link : Int) : Table :=
  t.put u (set (Link.encode link) (t.word u))

section

variable {s t : Table} {u v link : Int} {get : Word → Word} {set : Word → Word → Word}

theorem linkAt_of_covers (small : t.units ≤ Word.maxUnits) (hu : t.Covers u) :
    t.linkAt get u = .ok (Link.decode (get (t.word u))) :=
  inspect_of_covers small hu

theorem linkAt_congr (units : s.units = t.units)
    (field : s.Covers v → get (s.word v) = get (t.word v)) : s.linkAt get v = t.linkAt get v :=
  inspect_congr units fun hv => congrArg Link.decode (field hv)

theorem setLink_of_covers {fault : Int → Fault} (small : t.units ≤ Word.maxUnits)
    (hu : t.Covers u) (hl : t.Covers link) :
    setLink fault set u link t = .ok () (t.linkBy set u link) := by
  simp only [setLink, checkLink, if_pos hl, bind, EStateM.bind, ask, modifyEntry_of_covers small hu]
  rfl

end

def Leads (link : Int → Except Fault Int) : Int → List Int → Int → Prop
  | u, [], v => link u = .ok v
  | u, x :: rest, v => link u = .ok x ∧ Leads link x rest v

structure Chain (t : Table) (stops : List Int) : Prop where
  forward : Leads t.next head stops head
  backward : Leads t.prev head stops.reverse head
  distinct : stops.Nodup
  inside : ∀ u ∈ stops, 0 ≤ u ∧ u < t.units

theorem leads_append {link : Int → Except Fault Int} {u v x : Int} {before after : List Int} :
    Leads link u (before ++ x :: after) v ↔ Leads link u before x ∧ Leads link x after v := by
  induction before generalizing u with
  | nil => exact Iff.rfl
  | cons y rest ih => simp only [List.cons_append, Leads, ih, and_assoc]

theorem leads_congr {link link' : Int → Except Fault Int} {u v : Int} {stops : List Int}
    (same : ∀ w ∈ u :: stops, link w = link' w) :
    Leads link u stops v ↔ Leads link' u stops v := by
  induction stops generalizing u with
  | nil => simp only [Leads, same u (List.mem_cons_self ..)]
  | cons x rest ih =>
      have tail := ih fun w hw => same w (List.mem_cons_of_mem _ hw)
      simp only [Leads, same u (List.mem_cons_self ..), tail]

end FirstFit.Table
