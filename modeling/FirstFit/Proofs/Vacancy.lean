import FirstFit.Proofs.Sound

namespace FirstFit

namespace Run

theorem Within.antisymm {r s : Run} (h : r.Within s) (h' : s.Within r) : r = s := by
  cases r
  cases s
  simp only [Within, stop, mk.injEq] at *
  omega

theorem front_within {r : Run} {size : Nat} (fits : size ≤ r.size) :
    Within ⟨r.start, size⟩ r :=
  ⟨Nat.le_refl _, Nat.add_le_add_left fits _⟩

theorem contains_start {r : Run} (positive : 0 < r.size) : r.Contains r.start :=
  ⟨Nat.le_refl _, Nat.lt_add_of_pos_right positive⟩

theorem Contains.positive {r : Run} {u : Nat} (h : r.Contains u) : 0 < r.size := by
  simp only [Contains, stop] at h
  omega

theorem Contains.within {r s : Run} {u : Nat} (h : r.Contains u) (within : r.Within s) :
    s.Contains u := by
  simp only [Contains, Within] at *
  omega

end Run

structure Vacant (units : Nat) (live : List Run) (r : Run) : Prop where
  inside : r.stop ≤ units
  clear : ∀ u, r.Contains u → ∀ x ∈ live, ¬ x.Contains u

structure Gap (units : Nat) (live : List Run) (r : Run) : Prop where
  positive : 0 < r.size
  vacant : Vacant units live r
  widest : ∀ w, Vacant units live w → r.Within w → w = r

theorem Vacant.congr {units : Nat} {live live' : List Run} {r : Run} (h : Vacant units live r)
    (same : ∀ x, x ∈ live ↔ x ∈ live') : Vacant units live' r where
  inside := h.inside
  clear := fun u hu x hx => h.clear u hu x ((same x).2 hx)

theorem Vacant.within {units : Nat} {live : List Run} {r w : Run} (h : Vacant units live r)
    (within : w.Within r) : Vacant units live w where
  inside := Nat.le_trans within.2 h.inside
  clear := fun u hu => h.clear u (hu.within within)

theorem Gap.congr {units : Nat} {live live' : List Run} {r : Run} (h : Gap units live r)
    (same : ∀ x, x ∈ live ↔ x ∈ live') : Gap units live' r where
  positive := h.positive
  vacant := h.vacant.congr same
  widest := fun w vacant within => h.widest w (vacant.congr fun x => (same x).symm) within

namespace Arena.Sound

variable {m m' : Arena} {f w : Run} {u : Nat}

theorem vacant_of_free (h : m.Sound) (hf : f ∈ m.free) : Vacant m.units m.used f where
  inside := h.partition.below f (mem_runs_of_free hf)
  clear := fun _ inF _ hx inX => h.free_not_used hf hx
    (h.partition.eq_of_contains (mem_runs_of_free hf) (mem_runs_of_used hx) inF inX)

theorem exists_free_contains (h : m.Sound) (inside : u < m.units)
    (clear : ∀ x ∈ m.used, ¬ x.Contains u) : ∃ f ∈ m.free, f.Contains u := by
  obtain ⟨f, hf, inF⟩ := h.partition.covers u (Nat.zero_le _) inside
  rcases List.mem_append.1 hf with fFree | fUsed
  · exact ⟨f, fFree, inF⟩
  · exact absurd inF (clear f fUsed)

theorem used_of_stop (h : m.Sound) (hf : f ∈ m.free) (more : f.stop < m.units) :
    ∃ x ∈ m.used, x.Contains f.stop := by
  obtain ⟨x, hx, meet⟩ := h.partition.exists_start (mem_runs_of_free hf) more
  rcases List.mem_append.1 hx with xFree | xUsed
  · exact absurd meet.symm (h.spread f hf x xFree)
  · exact ⟨x, xUsed, Nat.le_of_eq meet, meet ▸ h.partition.start_lt_stop hx⟩

theorem used_of_start (h : m.Sound) (hf : f ∈ m.free) :
    f.start = 0 ∨ ∃ x ∈ m.used, x.Contains (f.start - 1) := by
  refine (Nat.eq_zero_or_pos f.start).imp_right fun more => ?_
  obtain ⟨x, hx, meet⟩ := h.partition.exists_stop (mem_runs_of_free hf) more
  rcases List.mem_append.1 hx with xFree | xUsed
  · exact absurd meet (h.spread x xFree f hf)
  · have := h.partition.start_lt_stop hx
    exact ⟨x, xUsed, by omega, by omega⟩

theorem exists_free_of_vacant (h : m.Sound) (vacant : Vacant m.units m.used w)
    (positive : 0 < w.size) : ∃ f ∈ m.free, w.Within f := by
  have inside := vacant.inside
  have first := Run.contains_start positive
  obtain ⟨f, hf, inF⟩ :=
    h.exists_free_contains (Nat.lt_of_lt_of_le first.2 inside) (vacant.clear _ first)
  refine ⟨f, hf, inF.1, Nat.le_of_not_lt fun short => ?_⟩
  -- the unit after `f` would lie in `w` and in a live run
  obtain ⟨x, hx, inX⟩ := h.used_of_stop hf (Nat.lt_of_lt_of_le short inside)
  exact vacant.clear f.stop ⟨Nat.le_of_lt inF.2, short⟩ x hx inX

theorem mem_free_iff (h : m.Sound) (r : Run) : r ∈ m.free ↔ Gap m.units m.used r := by
  constructor
  · intro hr
    have positive := h.partition.positive r (mem_runs_of_free hr)
    refine ⟨positive, h.vacant_of_free hr, fun w vacant within => ?_⟩
    have first := Run.contains_start positive
    have inW := first.within within
    obtain ⟨f, hf, wider⟩ := h.exists_free_of_vacant vacant inW.positive
    have same : r = f := h.partition.eq_of_contains (mem_runs_of_free hr) (mem_runs_of_free hf)
      first (inW.within wider)
    exact (same ▸ wider).antisymm within
  · intro gap
    obtain ⟨f, hf, within⟩ := h.exists_free_of_vacant gap.vacant gap.positive
    rwa [← gap.widest f (h.vacant_of_free hf) within]

theorem perm_free (h : m.Sound) (h' : m'.Sound) (units : m.units = m'.units)
    (used : ∀ r, r ∈ m.used ↔ r ∈ m'.used) : m.free.Perm m'.free := by
  rw [List.perm_ext_iff_of_nodup h.nodup_free h'.nodup_free]
  intro r
  rw [h.mem_free_iff, h'.mem_free_iff, ← units]
  exact ⟨fun gap => gap.congr used, fun gap => gap.congr fun x => (used x).symm⟩

end Arena.Sound

end FirstFit
