import FirstFit.Table.Agreement
import FirstFit.Table.Links
import FirstFit.Table.Tags

namespace FirstFit.Table

section Programs

variable {α β : Type} {t t' : Table} {a : α} {e : Fault}

theorem bind_ok {x : Edit α} {f : α → Edit β} (h : x t = .ok a t') : (x >>= f) t = f a t' := by
  simp only [bind, EStateM.bind, h]

theorem ask_ok {read : Table → Except Fault α} (h : read t = .ok a) : ask read t = .ok a t := by
  simp only [ask, h]

theorem compute_ok {result : Except Fault α} (h : result = .ok a) :
    compute result t = .ok a t :=
  ask_ok h

theorem branch_true {read : Table → Except Fault Bool} {x y : Edit α} (h : read t = .ok true) :
    (ask read >>= fun b => if b then x else y) t = x t := by
  rw [bind_ok (ask_ok h), if_pos rfl]

theorem branch_false {read : Table → Except Fault Bool} {x y : Edit α} (h : read t = .ok false) :
    (ask read >>= fun b => if b then x else y) t = y t := by
  rw [bind_ok (ask_ok h), if_neg Bool.false_ne_true]

end Programs

theorem add_eq {x y : Int} (low : -2 ≤ x + y) (high : x + y ≤ Word.maxUnits + 1) :
    Checked.add x y = .ok (x + y) := by
  rw [Word.maxUnits_eq] at high
  exact Checked.add_of_representable ⟨by omega, by omega⟩

theorem sub_eq {x y : Int} (low : -2 ≤ x - y) (high : x - y ≤ Word.maxUnits + 1) :
    Checked.sub x y = .ok (x - y) := by
  rw [Word.maxUnits_eq] at high
  exact Checked.sub_of_representable ⟨by omega, by omega⟩

theorem lastUnit_eq {u size : Int} (low : -1 ≤ u + size) (high : u + size ≤ Word.maxUnits + 1) :
    lastUnit u size = .ok (u + size - 1) := by
  simp only [lastUnit, add_eq (by omega : -2 ≤ u + size) high]
  exact sub_eq (by omega) (by omega)

def linkNext : Table → Int → Int → Table := linkBy Word.withNext

def linkPrev : Table → Int → Int → Table := linkBy Word.withPrev

def sized (t : Table) (u size : Int) : Table :=
  if size > 1 then
    ((t.put u (Word.withMulti true (t.word u))).put (u + 1) (Word.sizeTag size)).put (u + size - 1)
      (Word.sizeTag size)
  else
    t.put u (Word.withMulti false (t.word u))

def freed (t : Table) (u size : Int) (free : Bool) : Table :=
  let first := t.put u (Word.withFree free (t.word u))
  if size > 1 then
    first.put (u + size - 1) (Word.withFree free (first.word (u + size - 1)))
  else
    first

def retagged (t : Table) (u size : Int) (free : Bool) : Table :=
  (t.sized u size).freed u size free

section Units

variable (t : Table) (u link size : Int) (free : Bool)

@[simp] theorem units_linkBy (set : Word → Word → Word) :
    (t.linkBy set u link).units = t.units := rfl

@[simp] theorem units_linkNext : (t.linkNext u link).units = t.units := rfl

@[simp] theorem units_linkPrev : (t.linkPrev u link).units = t.units := rfl

@[simp] theorem units_sized : (t.sized u size).units = t.units := by
  unfold sized
  split <;> rfl

@[simp] theorem units_freed : (t.freed u size free).units = t.units := by
  simp only [freed]
  split <;> rfl

@[simp] theorem units_retagged : (t.retagged u size free).units = t.units := by
  simp only [retagged, units_freed, units_sized]

@[simp] theorem covers_linkBy (set : Word → Word → Word) (v : Int) :
    (t.linkBy set u link).Covers v ↔ t.Covers v := Iff.rfl

@[simp] theorem covers_linkNext (v : Int) : (t.linkNext u link).Covers v ↔ t.Covers v := Iff.rfl

@[simp] theorem covers_linkPrev (v : Int) : (t.linkPrev u link).Covers v ↔ t.Covers v := Iff.rfl

@[simp] theorem covers_sized (v : Int) : (t.sized u size).Covers v ↔ t.Covers v :=
  covers_congr (units_sized ..) v

@[simp] theorem covers_freed (v : Int) : (t.freed u size free).Covers v ↔ t.Covers v :=
  covers_congr (units_freed ..) v

@[simp] theorem covers_retagged (v : Int) : (t.retagged u size free).Covers v ↔ t.Covers v :=
  covers_congr (units_retagged ..) v

end Units

section Words

variable {t : Table} {u v link size : Int} {free : Bool}

theorem word_linkBy {set : Word → Word → Word} (hu : t.Covers u) (hv : t.Covers v) :
    (t.linkBy set u link).word v =
      if v = u then set (Link.encode link) (t.word v) else t.word v := by
  rw [linkBy, word_put hu hv]
  split
  case isTrue h => rw [h]
  case isFalse => rfl

theorem word_sized (low : -1 ≤ u) (positive : 1 ≤ size) (high : u + size ≤ t.units)
    (hv : t.Covers v) :
    (t.sized u size).word v =
      if v = u then Word.withMulti (decide (1 < size)) (t.word v)
      else if 1 < size ∧ (v = u + 1 ∨ v = u + size - 1) then Word.sizeTag size
      else t.word v := by
  have first : t.Covers u := ⟨low, by omega⟩
  unfold sized
  by_cases long : 1 < size
  · have second : t.Covers (u + 1) := ⟨by omega, by omega⟩
    have last : t.Covers (u + size - 1) := ⟨by omega, by omega⟩
    rw [if_pos long, word_put (by simpa using last) (by simpa using hv),
      word_put (by simpa using second) (by simpa using hv), word_put first hv]
    by_cases atFirst : v = u
    · rw [if_neg (by omega), if_neg (by omega), if_pos atFirst, if_pos atFirst, atFirst]
      simp only [long, decide_true]
    · by_cases atLast : v = u + size - 1
      · rw [if_pos atLast, if_neg atFirst, if_pos ⟨long, Or.inr atLast⟩]
      · by_cases atSecond : v = u + 1
        · rw [if_neg atLast, if_pos atSecond, if_neg atFirst, if_pos ⟨long, Or.inl atSecond⟩]
        · rw [if_neg atLast, if_neg atSecond, if_neg atFirst, if_neg atFirst,
            if_neg (by omega)]
  · rw [if_neg long, word_put first hv]
    simp only [long, false_and, if_false, decide_false]
    split
    case isTrue h => rw [h]
    case isFalse => rfl

theorem word_freed (low : -1 ≤ u) (high : u + size ≤ t.units + 1) (hu : t.Covers u)
    (hv : t.Covers v) :
    (t.freed u size free).word v =
      if v = u ∨ 1 < size ∧ v = u + size - 1 then Word.withFree free (t.word v) else t.word v := by
  unfold freed
  by_cases long : 1 < size
  · have last : t.Covers (u + size - 1) := ⟨by omega, by omega⟩
    dsimp only
    rw [if_pos long, word_put (by simpa using last) (by simpa using hv), word_put hu last,
      word_put hu hv]
    by_cases atLast : v = u + size - 1
    · rw [if_pos atLast, if_neg (by omega), if_pos (Or.inr ⟨long, atLast⟩), atLast]
    · by_cases atFirst : v = u
      · rw [if_neg atLast, if_pos atFirst, if_pos (Or.inl atFirst), atFirst]
      · rw [if_neg atLast, if_neg atFirst, if_neg (by omega)]
  · dsimp only
    rw [if_neg long, word_put hu hv]
    simp only [long, false_and, or_false]
    split
    case isTrue h => rw [h]
    case isFalse => rfl

theorem word_sized_of_outside (low : -1 ≤ u) (positive : 1 ≤ size) (high : u + size ≤ t.units)
    (hv : t.Covers v) (outside : v < u ∨ u + size ≤ v) : (t.sized u size).word v = t.word v := by
  rw [word_sized low positive high hv, if_neg (by omega), if_neg (by omega)]

theorem word_freed_of_outside (low : -1 ≤ u) (positive : 1 ≤ size) (high : u + size ≤ t.units)
    (hv : t.Covers v) (outside : v < u ∨ u + size ≤ v) :
    (t.freed u size free).word v = t.word v := by
  rw [word_freed low (by omega) ⟨low, by omega⟩ hv, if_neg (by omega)]

end Words

section Runs

variable {t : Table} {u v link size : Int} {free : Bool}

theorem setNext_eq (small : t.units ≤ Word.maxUnits) (hu : t.Covers u) (hl : t.Covers link) :
    setNext u link t = .ok () (t.linkNext u link) :=
  setLink_of_covers small hu hl

theorem setPrev_eq (small : t.units ≤ Word.maxUnits) (hu : t.Covers u) (hl : t.Covers link) :
    setPrev u link t = .ok () (t.linkPrev u link) :=
  setLink_of_covers small hu hl

theorem setSize_eq (small : t.units ≤ Word.maxUnits) (low : -1 ≤ u) (positive : 1 ≤ size)
    (high : u + size ≤ t.units) : setSize u size t = .ok () (t.sized u size) := by
  have sum : Checked.Representable (u + size) := by
    rw [Word.maxUnits_eq] at small
    exact ⟨by omega, by omega⟩
  have first : t.Covers u := ⟨low, by omega⟩
  rw [setSize, bind_ok (ask_ok (checkExtent_of_fits positive sum high))]
  by_cases long : 1 < size
  · have second : t.Covers (u + 1) := ⟨by omega, by omega⟩
    have last : t.Covers (u + size - 1) := ⟨by omega, by omega⟩
    rw [if_pos long, bind_ok (modifyEntry_of_covers small first _),
      bind_ok (compute_ok (add_eq (by omega) (by omega))),
      bind_ok (setEntry_of_covers (by simpa using small) (by simpa using second) _),
      bind_ok (compute_ok (lastUnit_eq (by omega) (by omega))),
      setEntry_of_covers (by simpa using small) (by simpa using last), sized, if_pos long]
  · rw [if_neg long, modifyEntry_of_covers small first, sized, if_neg long]

theorem setFree_eq (small : t.units ≤ Word.maxUnits) (hu : t.Covers u)
    (known : t.size u = .ok size) (high : u + size ≤ t.units + 1) :
    setFree u free t = .ok () (t.freed u size free) := by
  rw [setFree, bind_ok (ask_ok known), bind_ok (modifyEntry_of_covers small hu _)]
  by_cases long : 1 < size
  · have := hu.1
    have last : t.Covers (u + size - 1) := ⟨by omega, by omega⟩
    rw [if_pos long, bind_ok (compute_ok (lastUnit_eq (by omega) (by omega))),
      modifyEntry_of_covers (by simpa using small) (by simpa using last)]
    simp only [freed, if_pos long]
  · rw [if_neg long]
    simp only [freed, if_neg long]
    rfl

end Runs

section Fields

variable {s t : Table} {u v link : Int} {get rest : Word → Word} {set : Word → Word → Word}

theorem fits_link (small : t.units ≤ Word.maxUnits) (hl : t.Covers link) :
    Word.Fits (Link.encode link) :=
  Link.fits_encode hl.1 (by have := hl.2; omega)

theorem decode_link (small : t.units ≤ Word.maxUnits) (hl : t.Covers link) :
    Link.decode (Link.encode link) = link :=
  Link.decode_encode hl.1 (by have := hl.2; omega)

theorem word_linkBy_of_ne (hu : t.Covers u) (hv : t.Covers v) (apart : v ≠ u) :
    (t.linkBy set u link).word v = t.word v := by
  rw [word_linkBy hu hv, if_neg apart]

theorem rest_linkBy (field : Word.IsField get rest set) (small : t.units ≤ Word.maxUnits)
    (hu : t.Covers u) (hl : t.Covers link) (hv : t.Covers v) :
    rest ((t.linkBy set u link).word v) = rest (t.word v) := by
  rw [word_linkBy hu hv]
  split
  · exact field.other_set (fits_link small hl) _
  · rfl

theorem marks_linkBy (field : Word.IsField get rest set) (small : t.units ≤ Word.maxUnits)
    (hu : t.Covers u) (hl : t.Covers link) (hv : t.Covers v) :
    SameMarks ((t.linkBy set u link).word v) (t.word v) := by
  rw [word_linkBy hu hv]
  split
  · exact ⟨field.isFree_set (fits_link small hl) _, field.isMulti_set (fits_link small hl) _⟩
  · exact ⟨rfl, rfl⟩

theorem linkAt_linkBy (field : Word.IsField get rest set) (small : t.units ≤ Word.maxUnits)
    (hu : t.Covers u) (hl : t.Covers link) (v : Int) :
    (t.linkBy set u link).linkAt get v = if v = u then .ok link else t.linkAt get v := by
  by_cases at_u : v = u
  · subst at_u
    rw [if_pos rfl, linkAt_of_covers (by simpa using small) (by simpa using hu), word_linkBy hu hu,
      if_pos rfl, field.get_set (fits_link small hl), decode_link small hl]
  · rw [if_neg at_u]
    exact linkAt_congr rfl fun hv => congrArg get (word_linkBy_of_ne hu hv at_u)

theorem linkAt_rest_linkBy (field : Word.IsField get rest set) (small : t.units ≤ Word.maxUnits)
    (hu : t.Covers u) (hl : t.Covers link) (v : Int) :
    (t.linkBy set u link).linkAt rest v = t.linkAt rest v :=
  linkAt_congr rfl fun hv => rest_linkBy field small hu hl hv

theorem field_eq_of_linkAt (field : Word.IsField get rest set) (smallS : s.units ≤ Word.maxUnits)
    (smallT : t.units ≤ Word.maxUnits) (hs : s.Covers u) (ht : t.Covers v)
    (same : s.linkAt get u = t.linkAt get v) : get (s.word u) = get (t.word v) := by
  rw [linkAt_of_covers smallS hs, linkAt_of_covers smallT ht] at same
  have back := congrArg Link.encode (Except.ok.inj same)
  rwa [Link.encode_decode (field.fits _), Link.encode_decode (field.fits _)] at back

theorem word_eq_of_links (smallS : s.units ≤ Word.maxUnits) (smallT : t.units ≤ Word.maxUnits)
    (hs : s.Covers u) (ht : t.Covers u) (marks : SameMarks (s.word u) (t.word u))
    (next : s.next u = t.next u) (prev : s.prev u = t.prev u) : s.word u = t.word u :=
  Word.eq_of_parts marks.free marks.multi
    (field_eq_of_linkAt Word.isField_prev smallS smallT hs ht prev)
    (field_eq_of_linkAt Word.isField_next smallS smallT hs ht next)

theorem next_linkNext (small : t.units ≤ Word.maxUnits) (hu : t.Covers u) (hl : t.Covers link)
    (v : Int) : (t.linkNext u link).next v = if v = u then .ok link else t.next v :=
  linkAt_linkBy Word.isField_next small hu hl v

theorem prev_linkNext (small : t.units ≤ Word.maxUnits) (hu : t.Covers u) (hl : t.Covers link)
    (v : Int) : (t.linkNext u link).prev v = t.prev v :=
  linkAt_rest_linkBy Word.isField_next small hu hl v

theorem prev_linkPrev (small : t.units ≤ Word.maxUnits) (hu : t.Covers u) (hl : t.Covers link)
    (v : Int) : (t.linkPrev u link).prev v = if v = u then .ok link else t.prev v :=
  linkAt_linkBy Word.isField_prev small hu hl v

theorem next_linkPrev (small : t.units ≤ Word.maxUnits) (hu : t.Covers u) (hl : t.Covers link)
    (v : Int) : (t.linkPrev u link).next v = t.next v :=
  linkAt_rest_linkBy Word.isField_prev small hu hl v

end Fields

structure Relinked (among : Int → Prop) (s t : Table) : Prop where
  units : t.units = s.units
  marks : ∀ v, s.Covers v → SameMarks (t.word v) (s.word v)
  words : ∀ v, s.Covers v → ¬ among v → t.word v = s.word v

namespace Relinked

variable {r s t : Table} {P Q : Int → Prop} {u link : Int}

theorem trans (first : Relinked P r s) (second : Relinked P s t) : Relinked P r t where
  units := second.units.trans first.units
  marks := fun v hv =>
    (second.marks v ((covers_congr first.units v).2 hv)).trans (first.marks v hv)
  words := fun v hv out =>
    (second.words v ((covers_congr first.units v).2 hv) out).trans (first.words v hv out)

theorem isFree_eq (h : Relinked P s t) {v : Int} (hv : s.Covers v) : t.isFree v = s.isFree v :=
  inspect_congr h.units fun _ => (h.marks v hv).free

theorem mono (h : Relinked P s t) (sub : ∀ v, P v → Q v) : Relinked Q s t where
  units := h.units
  marks := h.marks
  words := fun v hv out => h.words v hv fun inside => out (sub v inside)

theorem refl (P : Int → Prop) (t : Table) : Relinked P t t :=
  ⟨rfl, fun _ _ => .refl _, fun _ _ _ => rfl⟩

theorem linkBy {get rest : Word → Word} {set : Word → Word → Word}
    (field : Word.IsField get rest set) (small : t.units ≤ Word.maxUnits) (hu : t.Covers u)
    (hl : t.Covers link) (inside : P u) : Relinked P t (t.linkBy set u link) where
  units := rfl
  marks := fun _ hv => marks_linkBy field small hu hl hv
  words := by
    intro v hv out
    refine word_linkBy_of_ne hu hv ?_
    rintro rfl
    exact out inside

theorem linkNext (small : t.units ≤ Word.maxUnits) (hu : t.Covers u) (hl : t.Covers link)
    (inside : P u) : Relinked P t (t.linkNext u link) :=
  linkBy Word.isField_next small hu hl inside

theorem linkPrev (small : t.units ≤ Word.maxUnits) (hu : t.Covers u) (hl : t.Covers link)
    (inside : P u) : Relinked P t (t.linkPrev u link) :=
  linkBy Word.isField_prev small hu hl inside

end Relinked

end FirstFit.Table
