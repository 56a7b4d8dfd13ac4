import FirstFit.Proofs.Writes

namespace FirstFit

namespace Fault

structure Phrased (position : Int) : Prop where
  outside : (outsideTable position).message = "unit " ++ toString position ++ " outside table"
  next : (nextOutOfRange position).message = "next link " ++ toString position ++ " out of range"
  prev : (prevOutOfRange position).message = "prev link " ++ toString position ++ " out of range"
  extent : badExtent.message = "assertion failed: size >= 1 && unit + size <= self.units"
  sum : sumOverflow.message = "attempt to add with overflow"

theorem phrased (position : Int) : Phrased position := ⟨rfl, rfl, rfl, rfl, rfl⟩

end Fault

namespace Table

inductive SizeFault (t : Table) (u size : Int) : Fault → Prop where
  | empty : size < 1 → SizeFault t u size .badExtent
  | long : 1 ≤ size → t.units < u + size → u + size ≤ 2147483647 → SizeFault t u size .badExtent
  | overflow : 1 ≤ size → 2147483647 < u + size → SizeFault t u size .sumOverflow
  | outside : 1 ≤ size → u + size ≤ t.units → u < head → SizeFault t u size (.outsideTable u)

inductive LinkFault (t : Table) (u link : Int) (outOfRange : Fault) : Fault → Prop where
  | link : ¬ t.Covers link → LinkFault t u link outOfRange outOfRange
  | outside : t.Covers link → ¬ t.Covers u → LinkFault t u link outOfRange (.outsideTable u)

structure Switched (s t : Table) (u : Int) (free : Bool) : Prop where
  units : t.units = s.units
  bits : ∀ v, s.Covers v → ∀ i,
    (t.word v).getLsbD i = if v = u ∧ i = 31 then free else (s.word v).getLsbD i

inductive FreeFault (t : Table) (u : Int) (free : Bool) : Fault → Table → Prop where
  | outside : ¬ t.Covers u → FreeFault t u free (.outsideTable u) t
  | bottom : u = t.units → (t.word u).isMulti = true →
      FreeFault t u free (.outsideTable (u + 1)) t
  | last {size : Int} {after : Table} : t.Covers u → (t.word u).isMulti = true →
      t.size u = .ok size → t.units < u + size - 1 → t.Switched after u free →
        FreeFault t u free (.outsideTable (u + size - 1)) after

section Programs

variable {α β : Type} {t t' : Table} {e : Fault}

theorem bind_error {x : Edit α} {f : α → Edit β} (h : x t = .error e t') :
    (x >>= f) t = .error e t' := by
  simp only [bind, EStateM.bind, h]

theorem ask_error {read : Table → Except Fault α} (h : read t = .error e) :
    ask read t = .error e t := by
  simp only [ask, h]

theorem error_iff {program : Edit α} (reason : Fault → Table → Prop)
    (fails : ∀ fault after, reason fault after → program t = .error fault after)
    (otherwise : (∃ a after, program t = .ok a after) ∨ ∃ fault after, reason fault after)
    {fault : Fault} {after : Table} : program t = .error fault after ↔ reason fault after := by
  refine ⟨fun failed => ?_, fails fault after⟩
  rcases otherwise with ⟨a, s, done⟩ | ⟨other, s, holds⟩
  · rw [done] at failed
    cases failed
  · rw [fails other s holds] at failed
    cases failed
    exact holds

end Programs

section Sizes

variable {t : Table} {u size : Int} {fault : Fault}

theorem setSize_of_checkExtent (h : t.checkExtent u size = .error fault) :
    setSize u size t = .error fault t :=
  bind_error (ask_error h)

theorem checkExtent_of_unsummable (positive : 1 ≤ size) (large : 2147483647 < u + size) :
    t.checkExtent u size = .error .sumOverflow := by
  have sum : ¬ Checked.Representable (u + size) := fun h => absurd h.2 (by omega)
  rw [checkExtent, if_neg (by omega), Checked.add, if_neg sum]
  rfl

theorem checkExtent_of_long (positive : 1 ≤ size) (small : Checked.Representable (u + size))
    (long : t.units < u + size) : t.checkExtent u size = .error .badExtent := by
  rw [checkExtent, if_neg (by omega), Checked.add_of_representable small]
  exact if_neg (by omega)

theorem setSize_of_outside (positive : 1 ≤ size) (small : Checked.Representable (u + size))
    (high : u + size ≤ t.units) (outside : ¬ t.Covers u) :
    setSize u size t = .error (.outsideTable u) t := by
  rw [setSize, bind_ok (ask_ok (checkExtent_of_fits positive small high))]
  split
  · exact bind_error (modifyEntry_of_not_covers outside _)
  · exact modifyEntry_of_not_covers outside _

theorem setSize_of_fault (small : t.units ≤ Word.maxUnits) (hu : Checked.Representable u)
    (h : t.SizeFault u size fault) : setSize u size t = .error fault t := by
  have low := hu.1
  rw [Word.maxUnits_eq] at small
  cases h with
  | empty none => exact setSize_of_checkExtent (if_pos none)
  | long positive long sum =>
    exact setSize_of_checkExtent (checkExtent_of_long positive ⟨by omega, sum⟩ long)
  | overflow positive large => exact setSize_of_checkExtent (checkExtent_of_unsummable positive large)
  | outside positive fits above =>
    rw [head_eq] at above
    exact setSize_of_outside positive ⟨by omega, by omega⟩ fits fun covers => by
      have := covers.1
      omega

theorem setSize_error_iff (small : t.units ≤ Word.maxUnits) (hu : Checked.Representable u)
    {after : Table} :
    setSize u size t = .error fault after ↔ after = t ∧ t.SizeFault u size fault := by
  refine error_iff (fun fault after => after = t ∧ t.SizeFault u size fault) ?_ ?_
  · rintro fault after ⟨rfl, h⟩
    exact setSize_of_fault small hu h
  by_cases positive : 1 ≤ size
  · by_cases large : 2147483647 < u + size
    · exact Or.inr ⟨_, t, rfl, .overflow positive large⟩
    by_cases long : t.units < u + size
    · exact Or.inr ⟨_, t, rfl, .long positive long (by omega)⟩
    by_cases above : u < head
    · exact Or.inr ⟨_, t, rfl, .outside positive (by omega) above⟩
    · rw [head_eq] at above
      exact Or.inl ⟨(), _, setSize_eq small (by omega) positive (by omega)⟩
  · exact Or.inr ⟨_, t, rfl, .empty (by omega)⟩

end Sizes

section Links

variable {t after : Table} {u link : Int} {fault : Fault} {outOfRange : Int → Fault}

theorem setLink_error_iff {set : Word → Word → Word} (small : t.units ≤ Word.maxUnits) :
    setLink outOfRange set u link t = .error fault after ↔
      after = t ∧ t.LinkFault u link (outOfRange link) fault := by
  refine error_iff (fun fault after => after = t ∧ t.LinkFault u link (outOfRange link) fault) ?_ ?_
  · rintro fault after ⟨rfl, h⟩
    cases h with
    | link beyond => exact bind_error (ask_error (if_neg beyond))
    | outside hl outside =>
      rw [setLink, bind_ok (ask_ok (if_pos hl)), modifyEntry_of_not_covers outside]
  by_cases hl : t.Covers link
  · by_cases hu : t.Covers u
    · exact Or.inl ⟨(), _, setLink_of_covers small hu hl⟩
    · exact Or.inr ⟨_, t, rfl, .outside hl hu⟩
  · exact Or.inr ⟨_, t, rfl, .link hl⟩

theorem setSentinel_error_iff (small : t.units ≤ Word.maxUnits) :
    setSentinel u t = .error fault after ↔
      after = t ∧ ¬ t.Covers u ∧ fault = .outsideTable u := by
  refine error_iff (fun fault after => after = t ∧ ¬ t.Covers u ∧ fault = .outsideTable u) ?_ ?_
  · rintro fault after ⟨rfl, outside, rfl⟩
    exact setEntry_of_not_covers outside _
  by_cases hu : t.Covers u
  · exact Or.inl ⟨(), _, setEntry_of_covers small hu _⟩
  · exact Or.inr ⟨_, t, rfl, hu, rfl⟩

end Links

section FreeBits

variable {t s after : Table} {u size : Int} {free : Bool} {fault : Fault}

theorem switched_put (hu : t.Covers u) :
    t.Switched (t.put u (Word.withFree free (t.word u))) u free := by
  refine ⟨rfl, fun v hv i => ?_⟩
  rw [word_put hu hv]
  by_cases here : v = u
  · rw [if_pos here, Word.getLsbD_withFree, here]
    simp only [true_and]
  · rw [if_neg here, if_neg fun both => here both.1]

theorem Switched.eq_put (h : t.Switched s u free) (hu : t.Covers u) :
    s = t.put u (Word.withFree free (t.word u)) := by
  refine ext_word h.units fun v hv => BitVec.eq_of_getLsbD_eq fun i _ => ?_
  have hv : t.Covers v := (covers_congr h.units v).1 hv
  rw [h.bits v hv, (switched_put hu).bits v hv]

theorem size_of_bottom (small : t.units ≤ Word.maxUnits) (multi : (t.word t.units).isMulti = true) :
    t.size t.units = .error (.outsideTable (t.units + 1)) := by
  have covers : t.Covers t.units := ⟨by omega, Int.le_refl _⟩
  have beyond : ¬ t.Covers (t.units + 1) := fun h => absurd h.2 (by omega)
  have sum : Checked.add t.units 1 = .ok (t.units + 1) := add_eq (by omega) (by omega)
  simp only [size, entry_of_covers small covers, sum]
  simp [bind, Except.bind, multi, entry_of_not_covers beyond]

theorem size_of_above_bottom (small : t.units ≤ Word.maxUnits) (hu : t.Covers u)
    (above : u ≠ t.units) (multi : (t.word u).isMulti = true) :
    t.size u = .ok (t.word (u + 1)).sizeField := by
  have low := hu.1
  have high := hu.2
  exact size_of_multi small hu ⟨by omega, by omega⟩ multi

theorem lastUnit_of_size (small : t.units ≤ Word.maxUnits) (hu : t.Covers u)
    (multi : (t.word u).isMulti = true) (known : t.size u = .ok size) :
    lastUnit u size = .ok (u + size - 1) := by
  have low := hu.1
  have high := hu.2
  have above : u ≠ t.units := by
    rintro rfl
    rw [size_of_bottom small multi] at known
    cases known
  rw [size_of_above_bottom small hu above multi] at known
  cases known
  have bounds := Word.sizeField_bounds (t.word (u + 1))
  rw [Word.maxUnits_eq] at small bounds
  rw [lastUnit, Checked.add_of_representable ⟨by omega, by omega⟩]
  exact Checked.sub_of_representable ⟨by omega, by omega⟩

theorem setFree_of_size_error (h : t.size u = .error fault) : setFree u free t = .error fault t :=
  bind_error (ask_error h)

theorem setFree_of_long (small : t.units ≤ Word.maxUnits) (hu : t.Covers u)
    (known : t.size u = .ok size) (long : 1 < size)
    (last : lastUnit u size = .ok (u + size - 1)) (below : t.units < u + size - 1) :
    setFree u free t =
      .error (.outsideTable (u + size - 1)) (t.put u (Word.withFree free (t.word u))) := by
  have beyond : ¬ t.Covers (u + size - 1) := fun h => absurd h.2 (by omega)
  rw [setFree, bind_ok (ask_ok known), bind_ok (modifyEntry_of_covers small hu _), if_pos long,
    bind_ok (compute_ok last), modifyEntry_of_not_covers (by simpa using beyond)]

theorem setFree_of_fault (small : t.units ≤ Word.maxUnits) (h : t.FreeFault u free fault after) :
    setFree u free t = .error fault after := by
  cases h with
  | outside beyond =>
    refine setFree_of_size_error ?_
    rw [size, entry_of_not_covers beyond]
    rfl
  | bottom here multi =>
    subst here
    exact setFree_of_size_error (size_of_bottom small multi)
  | last hu multi known below switched =>
    have high := hu.2
    rw [switched.eq_put hu]
    exact setFree_of_long small hu known (by omega) (lastUnit_of_size small hu multi known) below

theorem setFree_error_iff (small : t.units ≤ Word.maxUnits) :
    setFree u free t = .error fault after ↔ t.FreeFault u free fault after := by
  refine error_iff (t.FreeFault u free) (fun _ _ => setFree_of_fault small) ?_
  by_cases hu : t.Covers u
  · have high := hu.2
    cases multi : (t.word u).isMulti with
    | false =>
      exact Or.inl ⟨(), _, setFree_eq small hu (size_of_single small hu multi) (by omega)⟩
    | true =>
      by_cases bottom : u = t.units
      · exact Or.inr ⟨_, t, .bottom bottom multi⟩
      have known := size_of_above_bottom small hu bottom multi
      by_cases below : t.units < u + (t.word (u + 1)).sizeField - 1
      · exact Or.inr ⟨_, _, .last hu multi known below (switched_put hu)⟩
      · exact Or.inl ⟨(), _, setFree_eq small hu known (by omega)⟩
  · exact Or.inr ⟨_, t, .outside hu⟩

end FreeBits

structure FailsExactly (t : Table) : Prop where
  setSize : ∀ u size fault after, Checked.Representable u →
    (Table.setSize u size t = .error fault after ↔ after = t ∧ t.SizeFault u size fault)
  setNext : ∀ u link fault after, Table.setNext u link t = .error fault after ↔
    after = t ∧ t.LinkFault u link (.nextOutOfRange link) fault
  setPrev : ∀ u link fault after, Table.setPrev u link t = .error fault after ↔
    after = t ∧ t.LinkFault u link (.prevOutOfRange link) fault
  setSentinel : ∀ u fault after, Table.setSentinel u t = .error fault after ↔
    after = t ∧ ¬ t.Covers u ∧ fault = .outsideTable u
  setFree : ∀ u free fault after, Table.setFree u free t = .error fault after ↔
    t.FreeFault u free fault after

theorem failsExactly_of_small {t : Table} (small : t.units ≤ Word.maxUnits) :
    t.FailsExactly ∧ ∀ position, Fault.Phrased position where
  left := {
    setSize := fun _ _ _ _ hu => setSize_error_iff small hu
    setNext := fun _ _ _ _ => setLink_error_iff small
    setPrev := fun _ _ _ _ => setLink_error_iff small
    setSentinel := fun _ _ _ => setSentinel_error_iff small
    setFree := fun _ _ _ _ => setFree_error_iff small }
  right := Fault.phrased

def overlong : Table := ⟨3, #v[0, 0, 0x40000000, 9, 0]⟩

def overlongFreed : Table := ⟨3, #v[0, 0, 0xc0000000, 9, 0]⟩

theorem failsExactly_overlong : overlong.units ≤ Word.maxUnits ∧
    (overlong.FailsExactly ∧ ∀ position, Fault.Phrased position) ∧
      overlong.FreeFault 1 true (.outsideTable 9) overlongFreed := by
  have fails := failsExactly_of_small (t := overlong) (by decide)
  exact ⟨by decide, fails, (fails.1.setFree 1 true _ _).1 rfl⟩

end Table

end FirstFit
