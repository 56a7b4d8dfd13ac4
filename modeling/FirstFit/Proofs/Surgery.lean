import FirstFit.Proofs.Circle
import FirstFit.Proofs.Marks
import FirstFit.Table.Runs

namespace FirstFit

theorem Word.withNext_withPrev_comm {f g : Word} (hf : Fits f) (hg : Fits g) (w : Word) :
    withNext f (withPrev g w) = withPrev g (withNext f w) := by
  apply eq_of_parts <;> simp [hf, hg]

namespace Table

def bypassed (t : Table) (p q : Int) : Table := (t.linkNext p q).linkPrev q p

def spliced (t : Table) (p x q : Int) : Table :=
  (((t.linkPrev x p).linkNext x q).linkNext p x).linkPrev q x

def unlinked (t : Table) (before after : List Int) : Table :=
  t.bypassed (before.getLastD head) (after.headD head)

def enlisted (t : Table) (p : Int) (x : Run) (q : Int) : Table :=
  (t.retagged x.start x.size true).spliced p x.start q

def remainder (r : Run) (size : Nat) : Run := ⟨r.start + size, r.size - size⟩

def restLeft (t : Table) (before after : List Int) (r : Run) (size : Nat) : Table :=
  (t.retagged (remainder r size).start (remainder r size).size true).spliced
    (before.getLastD head) (remainder r size).start (after.headD head)

def taken (t : Table) (before after : List Int) (r : Run) (size : Nat) : Table :=
  if size < r.size then
    (t.restLeft before after r size).retagged r.start size false
  else
    (t.unlinked before after).freed r.start r.size false

section Links

variable {t : Table} {p x q u v link back : Int}

@[simp] theorem units_bypassed : (t.bypassed p q).units = t.units := by
  simp only [bypassed, units_linkPrev, units_linkNext]

@[simp] theorem units_spliced : (t.spliced p x q).units = t.units := by
  simp only [spliced, units_linkPrev, units_linkNext]

@[simp] theorem units_enlisted {x : Run} : (t.enlisted p x q).units = t.units := by
  simp only [enlisted, units_spliced, units_retagged]

@[simp] theorem units_unlinked (before after : List Int) :
    (t.unlinked before after).units = t.units :=
  units_bypassed

@[simp] theorem units_restLeft (before after : List Int) (r : Run) (size : Nat) :
    (t.restLeft before after r size).units = t.units := by
  simp only [restLeft, units_spliced, units_retagged]

@[simp] theorem units_taken (before after : List Int) (r : Run) (size : Nat) :
    (t.taken before after r size).units = t.units := by
  unfold taken
  split <;> simp

theorem linkNext_linkPrev_comm (small : t.units ≤ Word.maxUnits) (hu : t.Covers u)
    (hl : t.Covers link) (hv : t.Covers v) (hb : t.Covers back) :
    (t.linkNext u link).linkPrev v back = (t.linkPrev v back).linkNext u link := by
  refine ext_word rfl fun w hw => ?_
  have hw : t.Covers w := hw
  rw [linkPrev, linkNext, word_linkBy (by simpa using hv) (by simpa using hw), word_linkBy hu hw,
    word_linkBy (by simpa using hu) (by simpa using hw), word_linkBy hv hw]
  have comm := Word.withNext_withPrev_comm (fits_link small hl) (fits_link small hb) (t.word w)
  split <;> split <;> first | rfl | exact comm.symm

theorem bypassed_links (small : t.units ≤ Word.maxUnits) (hp : t.Covers p) (hq : t.Covers q)
    (v : Int) :
    (t.bypassed p q).next v = (if v = p then .ok q else t.next v) ∧
      (t.bypassed p q).prev v = (if v = q then .ok p else t.prev v) := by
  have small' : (t.linkNext p q).units ≤ Word.maxUnits := small
  constructor
  · rw [bypassed, next_linkPrev small' hq hp, next_linkNext small hp hq]
  · rw [bypassed, prev_linkPrev small' hq hp, prev_linkNext small hp hq]

theorem relinked_bypassed (small : t.units ≤ Word.maxUnits) (hp : t.Covers p) (hq : t.Covers q) :
    Relinked (fun v => v = p ∨ v = q) t (t.bypassed p q) :=
  (Relinked.linkNext small hp hq (Or.inl rfl)).trans (.linkPrev small hq hp (Or.inr rfl))

theorem spliced_links (small : t.units ≤ Word.maxUnits) (hp : t.Covers p) (hx : t.Covers x)
    (hq : t.Covers q) (v : Int) :
    (t.spliced p x q).next v = (if v = p then .ok x else if v = x then .ok q else t.next v) ∧
      (t.spliced p x q).prev v = (if v = q then .ok x else if v = x then .ok p else t.prev v) := by
  have small₁ : (t.linkPrev x p).units ≤ Word.maxUnits := small
  have small₂ : ((t.linkPrev x p).linkNext x q).units ≤ Word.maxUnits := small
  have small₃ : (((t.linkPrev x p).linkNext x q).linkNext p x).units ≤ Word.maxUnits := small
  constructor
  · rw [spliced, next_linkPrev small₃ hq hx, next_linkNext small₂ hp hx, next_linkNext small₁ hx hq,
      next_linkPrev small hx hp]
  · rw [spliced, prev_linkPrev small₃ hq hx, prev_linkNext small₂ hp hx, prev_linkNext small₁ hx hq,
      prev_linkPrev small hx hp]

theorem relinked_spliced (small : t.units ≤ Word.maxUnits) (hp : t.Covers p) (hx : t.Covers x)
    (hq : t.Covers q) : Relinked (fun v => v = p ∨ v = x ∨ v = q) t (t.spliced p x q) := by
  refine Relinked.trans (s := ((t.linkPrev x p).linkNext x q).linkNext p x) ?_ ?_
  · refine Relinked.trans (s := (t.linkPrev x p).linkNext x q) ?_ ?_
    · refine Relinked.trans (s := t.linkPrev x p) ?_ ?_
      · exact .linkPrev small hx hp (Or.inr (Or.inl rfl))
      · exact .linkNext small hx hq (Or.inr (Or.inl rfl))
    · exact .linkNext small hp hx (Or.inl rfl)
  · exact .linkPrev small hq hx (Or.inr (Or.inr rfl))

end Links

namespace Chain

variable {t : Table} {x y v : Int} {stops before after : List Int}

theorem covers (h : t.Chain stops) (hv : v ∈ head :: stops) : t.Covers v := by
  rcases List.mem_cons.1 hv with rfl | hv
  · rw [head_eq]
    exact ⟨Int.le_refl _, by omega⟩
  · have := h.inside v hv
    exact ⟨by omega, by omega⟩

theorem getLastD_mem (before after : List Int) : before.getLastD head ∈ head :: (before ++ after) := by
  have := List.getLastD_mem_cons (l := before) (a := head)
  simp only [List.mem_cons, List.mem_append] at *
  exact this.imp_right Or.inl

theorem headD_mem (before after : List Int) : after.headD head ∈ head :: (before ++ after) := by
  cases after <;> simp

theorem mem_around {v : Int} :
    v ∈ head :: (before ++ x :: after) ↔ v = x ∨ v ∈ head :: (before ++ after) := by
  simp only [List.mem_cons, List.mem_append, or_left_comm]

theorem covers_getLastD (h : t.Chain (before ++ x :: after)) : t.Covers (before.getLastD head) :=
  h.covers (getLastD_mem before _)

theorem covers_headD (h : t.Chain (before ++ x :: after)) : t.Covers (after.headD head) :=
  h.covers (mem_around.2 (Or.inr (headD_mem before after)))

theorem ne_of_fresh (fresh : y ∉ stops) (inside : 0 ≤ y) {v : Int} (hv : v ∈ head :: stops) :
    v ≠ y := by
  rintro rfl
  rcases List.mem_cons.1 hv with eq | hv
  · rw [head_eq] at eq
    omega
  · exact fresh hv

theorem sized {r : Run} (h : t.Chain stops) (positive : 0 < r.size) (inside : r.stop ≤ t.units)
    (clear : ∀ v ∈ head :: stops, r.Clear v) : (t.sized r.start r.size).Chain stops := by
  have stop := r.cast_stop
  have links {v : Int} (hv : v ∈ head :: stops) :=
    links_sized (t := t) (v := v) (by omega : 0 ≤ (r.start : Int)) (by omega : 1 ≤ (r.size : Int))
      (by omega) (by
        have := clear v hv
        simp only [Run.Clear] at this
        omega)
  exact h.congr (units_sized ..) (fun v hv => (links hv).1) fun v hv => (links hv).2

theorem freed {r : Run} {free : Bool} (h : t.Chain stops) (positive : 0 < r.size)
    (inside : r.stop ≤ t.units) : (t.freed r.start r.size free).Chain stops := by
  have stop := r.cast_stop
  have links := links_freed (t := t) free (by omega : 0 ≤ (r.start : Int))
    (by omega : 1 ≤ (r.size : Int)) (by omega)
  exact h.congr (units_freed ..) (fun v _ => (links v).1) fun v _ => (links v).2

theorem retagged {r : Run} {free : Bool} (h : t.Chain stops) (positive : 0 < r.size)
    (inside : r.stop ≤ t.units) (clear : ∀ v ∈ head :: stops, r.Clear v) :
    (t.retagged r.start r.size free).Chain stops :=
  (h.sized positive inside clear).freed positive (by simpa using inside)

theorem unlinked (small : t.units ≤ Word.maxUnits) (h : t.Chain (before ++ x :: after)) :
    (t.unlinked before after).Chain (before ++ after) := by
  have links := bypassed_links small h.covers_getLastD h.covers_headD
  unfold Table.unlinked
  refine h.remove units_bypassed ?_ ?_ (fun v _ ne => ?_) (fun v _ ne => ?_)
  · rw [(links _).1, if_pos rfl]
  · rw [(links _).2, if_pos rfl]
  · rw [(links _).1, if_neg ne]
  · rw [(links _).2, if_neg ne]

theorem relinked_unlinked (small : t.units ≤ Word.maxUnits)
    (h : t.Chain (before ++ x :: after)) :
    Relinked (fun v => v ∈ head :: (before ++ after)) t (t.unlinked before after) := by
  refine (relinked_bypassed small h.covers_getLastD h.covers_headD).mono ?_
  rintro v (rfl | rfl)
  · exact getLastD_mem before after
  · exact headD_mem before after

theorem spliced_replace (small : t.units ≤ Word.maxUnits) (h : t.Chain (before ++ x :: after))
    (fresh : y ∉ before ++ after) (inside : 0 ≤ y ∧ y < t.units) :
    (t.spliced (before.getLastD head) y (after.headD head)).Chain (before ++ y :: after) := by
  have hy : t.Covers y := ⟨by omega, by omega⟩
  have ne {v : Int} (hv : v ∈ head :: (before ++ after)) : v ≠ y := ne_of_fresh fresh inside.1 hv
  have py := ne (getLastD_mem before after)
  have qy := ne (headD_mem before after)
  have links := spliced_links small h.covers_getLastD hy h.covers_headD
  refine h.replace units_spliced fresh inside ?_ ?_ ?_ ?_ (fun v hv apart => ?_) (fun v hv apart => ?_)
  · rw [(links _).1, if_pos rfl]
  · rw [(links _).1, if_neg py.symm, if_pos rfl]
  · rw [(links _).2, if_pos rfl]
  · rw [(links _).2, if_neg qy.symm, if_pos rfl]
  · rw [(links _).1, if_neg apart, if_neg (ne hv)]
  · rw [(links _).2, if_neg apart, if_neg (ne hv)]

theorem spliced_front (small : t.units ≤ Word.maxUnits) (h : t.Chain stops) (fresh : y ∉ stops)
    (inside : 0 ≤ y ∧ y < t.units) :
    (t.spliced head y (stops.headD head)).Chain (y :: stops) := by
  have hy : t.Covers y := ⟨by omega, by omega⟩
  have ne {v : Int} (hv : v ∈ head :: stops) : v ≠ y := ne_of_fresh fresh inside.1 hv
  have py := ne List.mem_cons_self
  have qy := ne (headD_mem [] stops)
  have links := spliced_links small (h.covers List.mem_cons_self) hy
    (h.covers (headD_mem [] stops))
  refine h.insertFront units_spliced fresh inside ?_ ?_ ?_ ?_ (fun v hv => ?_) (fun v hv apart => ?_)
  · rw [(links _).1, if_pos rfl]
  · rw [(links _).1, if_neg py.symm, if_pos rfl]
  · rw [(links _).2, if_pos rfl]
  · rw [(links _).2, if_neg qy.symm, if_pos rfl]
  · have notHead : v ≠ head := fun eq => h.head_not_mem (eq ▸ hv)
    rw [(links _).1, if_neg notHead, if_neg (ne (List.mem_cons_of_mem _ hv))]
  · rw [(links _).2, if_neg apart, if_neg (ne hv)]

end Chain

section Rest

variable {t : Table} {r f : Run} {size : Nat} {before after : List Int}

theorem stop_remainder (fits : size ≤ r.size) : (remainder r size).stop = r.stop := by
  simp only [remainder, Run.stop]
  omega

theorem remainder_within (r : Run) (less : size < r.size) : (remainder r size).Within r := by
  simp only [remainder, Run.Within, Run.stop]
  omega

theorem remainder_positive (less : size < r.size) : 0 < (remainder r size).size := by
  simp only [remainder]
  omega

theorem clear_remainder (less : size < r.size)
    (clear : ∀ v ∈ head :: (before ++ after), r.Clear v) :
    ∀ v ∈ head :: (before ++ (r.start : Int) :: after), (remainder r size).Clear v := by
  intro v hv
  have within := remainder_within r less
  rcases Chain.mem_around.1 hv with rfl | hv
  · exact r.clear_start.within within
  · exact (clear v hv).within within

theorem Chain.restLeft (small : t.units ≤ Word.maxUnits)
    (h : t.Chain (before ++ (r.start : Int) :: after)) (inside : r.stop ≤ t.units)
    (positive : 0 < size) (less : size < r.size)
    (clear : ∀ v ∈ head :: (before ++ after), r.Clear v) :
    (t.restLeft before after r size).Chain (before ++ ((remainder r size).start : Int) :: after) := by
  have within := remainder_within r less
  have some := remainder_positive less
  have stop := (remainder r size).cast_stop
  have retagged : (t.retagged (remainder r size).start (remainder r size).size true).Chain
      (before ++ (r.start : Int) :: after) :=
    h.retagged some (Nat.le_trans within.2 inside) (clear_remainder less clear)
  refine retagged.spliced_replace (by simpa using small) (fun there => ?_) ?_
  · have := clear _ (List.mem_cons_of_mem _ there)
    simp only [Run.Clear, remainder, Run.stop] at this
    omega
  · have := within.2
    rw [units_retagged]
    omega

theorem marked_remainder (small : t.units ≤ Word.maxUnits) (inside : r.stop ≤ t.units)
    (less : size < r.size) :
    (t.retagged (remainder r size).start (remainder r size).size true).Marked (remainder r size)
      true :=
  marked_retagged small (remainder_positive less)
    (Nat.le_trans (remainder_within r less).2 inside)

theorem Chain.relinked_restLeft (small : t.units ≤ Word.maxUnits)
    (h : t.Chain (before ++ (r.start : Int) :: after)) (inside : r.stop ≤ t.units)
    (less : size < r.size) :
    Relinked (fun v => v = (remainder r size).start ∨ v ∈ head :: (before ++ after))
      (t.retagged (remainder r size).start (remainder r size).size true)
      (t.restLeft before after r size) := by
  have tagged := marked_remainder small inside less
  refine (relinked_spliced (by simpa using small) ?_ tagged.covers_start ?_).mono ?_
  · simpa using h.covers_getLastD
  · simpa using h.covers_headD
  · rintro v (rfl | rfl | rfl)
    · exact Or.inr (Chain.getLastD_mem before after)
    · exact Or.inl rfl
    · exact Or.inr (Chain.headD_mem before after)

theorem marked_restLeft (small : t.units ≤ Word.maxUnits)
    (h : t.Chain (before ++ (r.start : Int) :: after)) (inside : r.stop ≤ t.units)
    (less : size < r.size) (clear : ∀ v ∈ head :: (before ++ after), r.Clear v) :
    (t.restLeft before after r size).Marked (remainder r size) true := by
  have within := remainder_within r less
  refine (marked_remainder small inside less).relinked (h.relinked_restLeft small inside less) ?_
  rintro v (rfl | hv)
  · exact Run.clear_start _
  · exact (clear v hv).within within

theorem Marked.restLeft {free : Bool} (small : t.units ≤ Word.maxUnits)
    (h : t.Chain (before ++ (r.start : Int) :: after)) (inside : r.stop ≤ t.units)
    (less : size < r.size) (marked : t.Marked f free) (apart : f.Apart r)
    (clear : ∀ v ∈ head :: (before ++ after), f.Clear v) :
    (t.restLeft before after r size).Marked f free := by
  have within := remainder_within r less
  have apartRest := apart.within within
  have kept : (t.retagged (remainder r size).start (remainder r size).size true).Marked f free :=
    marked.retagged (remainder_positive less) (Nat.le_trans within.2 inside) apartRest
  refine kept.relinked (h.relinked_restLeft small inside less) ?_
  rintro v (rfl | hv)
  · exact apartRest.clear
  · exact clear v hv

end Rest

section Programs

variable {t : Table} {x u : Int} {stops before after : List Int}

theorem unlink_eq (small : t.units ≤ Word.maxUnits) (h : t.Chain (before ++ x :: after)) :
    unlink x t = .ok () (t.unlinked before after) := by
  rw [unlink, bind_ok (ask_ok h.next_eq), bind_ok (ask_ok h.prev_eq),
    bind_ok (setNext_eq small h.covers_getLastD h.covers_headD)]
  exact setPrev_eq (by simpa using small) h.covers_headD h.covers_getLastD

theorem insertFront_eq {size : Int} (small : t.units ≤ Word.maxUnits) (h : t.Chain stops)
    (low : 0 ≤ u) (positive : 1 ≤ size) (high : u + size ≤ t.units) (known : t.size u = .ok size) :
    insertFront u t = .ok () ((t.freed u size true).spliced head u (stops.headD head)) := by
  have hu : t.Covers u := ⟨by omega, by omega⟩
  have hhead : t.Covers head := h.covers List.mem_cons_self
  have hfirst : t.Covers (stops.headD head) := h.covers (Chain.headD_mem [] stops)
  have links := links_freed true low positive high head
  rw [insertFront, bind_ok (setFree_eq small hu known (by omega)),
    bind_ok (ask_ok (links.1.trans h.next_head)),
    bind_ok (setNext_eq (by simpa using small) (by simpa using hu) (by simpa using hfirst)),
    bind_ok (setNext_eq (by simpa using small) (by simpa using hhead) (by simpa using hu)),
    bind_ok (setPrev_eq (by simpa using small) (by simpa using hu) (by simpa using hhead)),
    setPrev_eq (by simpa using small) (by simpa using hfirst) (by simpa using hu)]
  -- the back link of `u` may as well be written first
  have small' : (t.freed u size true).units ≤ Word.maxUnits := by simpa using small
  rw [linkNext_linkPrev_comm (by simpa using small) (by simpa using hhead) (by simpa using hu)
      (by simpa using hu) (by simpa using hhead),
    linkNext_linkPrev_comm small' (by simpa using hu) (by simpa using hfirst) (by simpa using hu)
      (by simpa using hhead)]
  rfl

theorem size_sized (small : t.units ≤ Word.maxUnits) {r : Run} (positive : 0 < r.size)
    (inside : r.stop ≤ t.units) : (t.sized r.start r.size).size r.start = .ok r.size :=
  (sized_sized small positive inside).size_eq (by simpa using small)

section Split

variable {r : Run} {size : Nat}

theorem leaveRest_eq (small : t.units ≤ Word.maxUnits)
    (h : t.Chain (before ++ (r.start : Int) :: after))
    (inside : r.stop ≤ t.units) (less : size < r.size) :
    leaveRest r.start size r.size t = .ok () (t.restLeft before after r size) := by
  have start : (r.start : Int) + size = (remainder r size).start := by simp [remainder]
  have left : (r.size : Int) - size = (remainder r size).size := by
    simp only [remainder]
    omega
  have stop := stop_remainder (Nat.le_of_lt less)
  have some : 0 < (remainder r size).size := by omega
  have bounds := (remainder r size).cast_stop
  have hx : t.Covers (remainder r size).start := ⟨by omega, by omega⟩
  rw [leaveRest, bind_ok (ask_ok h.prev_eq), bind_ok (ask_ok h.next_eq),
    bind_ok (compute_ok (add_eq (by omega) (by omega))),
    bind_ok (compute_ok (sub_eq (by omega) (by omega))), start, left,
    bind_ok (setSize_eq small (by omega) (by omega) (by omega)),
    bind_ok (setFree_eq (by simpa using small) (by simpa using hx)
      (size_sized small some (by omega)) (by simp only [units_sized]; omega))]
  change Bind.bind (setPrev _ _) _
    (t.retagged (remainder r size).start (remainder r size).size true) = _
  rw [bind_ok (setPrev_eq (by simpa using small) (by simpa using hx)
      (by simpa using h.covers_getLastD)),
    bind_ok (setNext_eq (by simpa using small) (by simpa using hx) (by simpa using h.covers_headD)),
    bind_ok (setNext_eq (by simpa using small) (by simpa using h.covers_getLastD)
      (by simpa using hx)),
    setPrev_eq (by simpa using small) (by simpa using h.covers_headD) (by simpa using hx)]
  rfl

theorem takeFront_eq_part (small : t.units ≤ Word.maxUnits)
    (h : t.Chain (before ++ (r.start : Int) :: after)) (inside : r.stop ≤ t.units)
    (positive : 0 < size) (less : size < r.size) :
    takeFront r.start size r.size t = .ok () (t.taken before after r size) := by
  have stop := r.cast_stop
  let front : Run := ⟨r.start, size⟩
  have frontInside : front.stop ≤ t.units := by
    simp only [front, Run.stop] at *
    omega
  rw [taken, if_pos less, takeFront, if_pos (by omega), bind_ok (leaveRest_eq small h inside less),
    bind_ok (setSize_eq (by simpa using small) (by omega) (by omega) (by simp; omega))]
  refine setFree_eq (by simpa using small) ?_ ?_ ?_
  · exact ⟨by omega, by simp only [units_sized, units_restLeft]; omega⟩
  · exact size_sized (r := front) (by simpa using small) positive (by simpa using frontInside)
  · simp only [units_sized, units_restLeft]
    omega

theorem takeFront_eq_whole (small : t.units ≤ Word.maxUnits)
    (h : t.Chain (before ++ (r.start : Int) :: after)) (marked : t.Marked r true)
    (clear : ∀ v ∈ head :: (before ++ after), r.Clear v) :
    takeFront r.start r.size r.size t = .ok () (t.taken before after r r.size) := by
  have bounds := marked.bounds
  have still := marked.relinked (h.relinked_unlinked small) clear
  rw [taken, if_neg (Nat.lt_irrefl _), takeFront, if_neg (by omega), bind_ok (unlink_eq small h)]
  refine setFree_eq (by simpa using small) still.covers_start ?_ ?_
  · exact still.size_eq (by simpa using small)
  · simp only [units_unlinked]
    omega

end Split

end Programs

end Table

end FirstFit
