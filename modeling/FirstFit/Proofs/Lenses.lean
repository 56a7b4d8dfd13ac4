import FirstFit.Proofs.Surgery

namespace FirstFit

namespace Link

structure Faithful : Prop where
  bounds : ∀ field : Word, head ≤ decode field ∧ decode field ≤ Word.maxUnits
  decode_encode : ∀ position : Int, head ≤ position → position ≤ Word.maxUnits →
    decode (encode position) = position
  encode_decode : ∀ field : Word, Word.Fits field → encode (decode field) = field

theorem faithful : Faithful where
  bounds := decode_bounds
  decode_encode := fun _ => decode_encode
  encode_decode := fun _ => encode_decode

end Link

namespace Table

variable {t : Table} {u v x y : Int}

theorem put_put (hu : t.Covers u) (first second : Word) :
    (t.put u first).put u second = t.put u second := by
  refine ext_word rfl fun p hp => ?_
  have hp : t.Covers p := hp
  rw [word_put (by simpa using hu) (by simpa using hp), word_put hu hp, word_put hu hp]
  split <;> rfl

theorem put_word (hu : t.Covers u) : t.put u (t.word u) = t := by
  refine ext_word rfl fun p hp => ?_
  rw [word_put hu hp]
  split
  case isTrue h => rw [h]
  case isFalse => rfl

structure Aimed (link other : Table → Int → Except Fault Int) (u v : Int) (s t : Table) : Prop where
  units : t.units = s.units
  link : link t u = .ok v
  other : other t u = other s u
  marks : SameMarks (t.word u) (s.word u)
  words : ∀ p, s.Covers p → p ≠ u → t.word p = s.word p

structure Lens (link other : Table → Int → Except Fault Int) (set : Int → Int → Edit Unit)
    (t : Table) : Prop where
  sets : ∀ u v, t.Covers u → t.Covers v → ∃ s, set u v t = .ok () s ∧ Aimed link other u v t s
  last : ∀ u v w, t.Covers u → t.Covers v → t.Covers w → (do set u v; set u w) t = set u w t
  same : ∀ u v, t.Covers u → link t u = .ok v → v ≤ t.units → set u v t = .ok () t

section Field

variable {get rest : Word → Word} {set : Word → Word → Word} {fault : Int → Fault}

theorem aimed_linkBy (field : Word.IsField get rest set) (small : t.units ≤ Word.maxUnits)
    (hu : t.Covers u) (hv : t.Covers v) :
    Aimed (linkAt get) (linkAt rest) u v t (t.linkBy set u v) where
  units := rfl
  link := by rw [linkAt_linkBy field small hu hv, if_pos rfl]
  other := linkAt_rest_linkBy field small hu hv u
  marks := marks_linkBy field small hu hv hu
  words := fun _ hp apart => word_linkBy_of_ne hu hp apart

theorem linkBy_linkBy (field : Word.IsField get rest set) (small : t.units ≤ Word.maxUnits)
    (hu : t.Covers u) (hx : t.Covers x) (hy : t.Covers y) :
    (t.linkBy set u x).linkBy set u y = t.linkBy set u y := by
  rw [linkBy, word_linkBy hu hu, if_pos rfl,
    field.set_set (fits_link small hx) (fits_link small hy)]
  exact put_put hu _ _

theorem linkBy_of_read (field : Word.IsField get rest set) (hu : t.Covers u) :
    t.linkBy set u (Link.decode (get (t.word u))) = t := by
  rw [linkBy, Link.encode_decode (field.fits _), field.set_get, put_word hu]

theorem lens_of_field (field : Word.IsField get rest set) (small : t.units ≤ Word.maxUnits) :
    t.Lens (linkAt get) (linkAt rest) (setLink fault set) where
  sets := fun _ _ hu hv => ⟨_, setLink_of_covers small hu hv, aimed_linkBy field small hu hv⟩
  last := by
    intro u v w hu hv hw
    rw [bind_ok (setLink_of_covers small hu hv),
      setLink_of_covers (by simpa using small) (by simpa using hu) (by simpa using hw),
      linkBy_linkBy field small hu hv hw, setLink_of_covers small hu hw]
  same := by
    intro u v hu known within
    rw [linkAt_of_covers small hu] at known
    cases known
    rw [setLink_of_covers small hu ⟨(Link.decode_bounds _).1, within⟩, linkBy_of_read field hu]

end Field

theorem setNext_setPrev_comm (small : t.units ≤ Word.maxUnits) (hu : t.Covers u) (hv : t.Covers v)
    (hx : t.Covers x) (hy : t.Covers y) :
    ∃ s, (do setNext u v; setPrev x y) t = .ok () s ∧ (do setPrev x y; setNext u v) t = .ok () s := by
  refine ⟨(t.linkNext u v).linkPrev x y, ?_, ?_⟩
  · rw [bind_ok (setNext_eq small hu hv),
      setPrev_eq (by simpa using small) (by simpa using hx) (by simpa using hy)]
  · rw [bind_ok (setPrev_eq small hx hy),
      setNext_eq (by simpa using small) (by simpa using hu) (by simpa using hv),
      linkNext_linkPrev_comm small hu hv hx hy]

structure Lenses (t : Table) : Prop where
  next : t.Lens Table.next Table.prev setNext
  prev : t.Lens Table.prev Table.next setPrev
  comm : ∀ u v x y, t.Covers u → t.Covers v → t.Covers x → t.Covers y →
    ∃ s, (do setNext u v; setPrev x y) t = .ok () s ∧ (do setPrev x y; setNext u v) t = .ok () s
  codes : Link.Faithful

theorem lenses_of_small (small : t.units ≤ Word.maxUnits) : t.Lenses where
  next := lens_of_field Word.isField_next small
  prev := lens_of_field Word.isField_prev small
  comm := fun _ _ _ _ hu hv hx hy => setNext_setPrev_comm small hu hv hx hy
  codes := Link.faithful

def brimming : Table := ⟨32766, Vector.replicate 32768 0xffffffff⟩

theorem lenses_brimming : brimming.units ≤ Word.maxUnits ∧ brimming.Covers 0 ∧
    brimming.Covers 32766 ∧ brimming.Lenses ∧
      ∃ s, setNext 0 32766 brimming = .ok () s ∧ Aimed next prev 0 32766 brimming s := by
  have first : brimming.Covers 0 := by decide
  have last : brimming.Covers 32766 := by decide
  have lenses : brimming.Lenses := lenses_of_small (Nat.le_refl _)
  exact ⟨Nat.le_refl _, first, last, lenses, lenses.next.sets 0 32766 first last⟩

end Table

end FirstFit
