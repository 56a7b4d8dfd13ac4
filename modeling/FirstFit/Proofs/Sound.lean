import FirstFit.Arena
import FirstFit.Proofs.Partition

namespace FirstFit

theorem filter_not_middle {α : Type} {p : α → Bool} {before taken after : List α}
    (inside : ∀ a ∈ taken, p a = true) (outside : ∀ b ∈ before ++ after, p b = false) :
    (before ++ taken ++ after).filter (fun b => !p b) = before ++ after := by
  have keep (xs : List α) (sub : ∀ b ∈ xs, p b = false) : xs.filter (fun b => !p b) = xs := by
    rw [List.filter_eq_self]
    intro b hb
    rw [sub b hb]
    rfl
  have gone : taken.filter (fun b => !p b) = [] := by
    rw [List.filter_eq_nil_iff]
    intro a ha
    simp [inside a ha]
  rw [List.filter_append, List.filter_append, gone, List.append_nil,
    keep before fun b hb => outside b (List.mem_append_left _ hb),
    keep after fun b hb => outside b (List.mem_append_right _ hb)]

theorem filter_not_of_split {α : Type} {p : α → Bool} {a : α} {before after : List α}
    (found : p a = true) (only : ∀ b ∈ before ++ after, p b = false) :
    (before ++ a :: after).filter (fun b => !p b) = before ++ after := by
  rw [List.append_cons]
  exact filter_not_middle (List.forall_mem_singleton.2 found) only

theorem only_of_unique {α : Type} {p : α → Bool} {a : α} {before after : List α}
    (nodup : (before ++ a :: after).Nodup)
    (unique : ∀ b ∈ before ++ a :: after, p b = true → b = a) :
    ∀ b ∈ before ++ after, p b = false := by
  have fresh : a ∉ before ++ after := (List.nodup_cons.1 (List.perm_middle.nodup nodup)).1
  intro b hb
  apply Bool.eq_false_iff.2
  intro pb
  have inside : b ∈ before ++ a :: after := List.perm_middle.mem_iff.2 (List.mem_cons_of_mem _ hb)
  exact fresh (unique b inside pb ▸ hb)

theorem perm_find?_filter {α : Type} {p : α → Bool} {xs : List α} (nodup : xs.Nodup)
    (unique : ∀ a ∈ xs, ∀ b ∈ xs, p a = true → p b = true → a = b) :
    xs.Perm ((xs.find? p).toList ++ xs.filter fun b => !p b) := by
  cases found : xs.find? p with
  | none =>
    have none : ∀ b ∈ xs, ¬ p b = true := List.find?_eq_none.1 found
    have keep : (xs.filter fun b => !p b) = xs := by
      rw [List.filter_eq_self]
      intro b hb
      simpa using none b hb
    rw [keep]
    exact List.Perm.refl _
  | some a =>
    obtain ⟨pa, before, after, rfl, -⟩ := List.find?_eq_some_iff_append.1 found
    have only := only_of_unique nodup fun b hb pb => unique b hb a (by simp) pb pa
    rw [filter_not_of_split pa only]
    exact List.perm_middle

inductive Grows (r whole : Run) : Option Run → Prop where
  | alone : whole = r → Grows r whole none
  | above {f : Run} :
      f.start = whole.start → f.stop = r.start → r.stop = whole.stop → Grows r whole (some f)
  | below {f : Run} :
      r.start = whole.start → r.stop = f.start → f.stop = whole.stop → Grows r whole (some f)

theorem Partition.grow {lo hi : Nat} {runs rest : List Run} {r whole : Run} {p : Run → Bool}
    (h : Partition lo hi (r :: (runs ++ rest)))
    (unique : ∀ a ∈ runs, ∀ b ∈ runs, p a = true → p b = true → a = b)
    (grows : Grows r whole (runs.find? p)) :
    Partition lo hi (whole :: ((runs.filter fun b => !p b) ++ rest)) := by
  have nodup : runs.Nodup := (List.nodup_append.1 (List.nodup_cons.1 h.nodup).2).1
  have perm := perm_find?_filter nodup unique
  cases found : runs.find? p with
  | none =>
    rw [found] at grows perm
    cases grows with
    | alone eq =>
      rw [eq]
      exact h.perm ((perm.append_right rest).cons r)
  | some f =>
    rw [found] at grows perm
    have apart : Partition lo hi (r :: f :: ((runs.filter fun b => !p b) ++ rest)) :=
      h.perm ((perm.append_right rest).cons r)
    cases grows with
    | above start meet stop => exact (apart.perm (List.Perm.swap ..)).join start meet stop
    | below start meet stop => exact apart.join start meet stop

namespace Arena

def runs (m : Arena) : List Run := m.free ++ m.used

def carved (m : Arena) (before : List Run) (r : Run) (after : List Run) (size : Nat) : Arena :=
  { m with free := before ++ rest r size ++ after, used := ⟨r.start, size⟩ :: m.used }

structure Sound (m : Arena) : Prop where
  partition : Partition 0 m.units m.runs
  spread : ∀ f ∈ m.free, ∀ g ∈ m.free, f.stop ≠ g.start

theorem mem_runs_of_free {m : Arena} {r : Run} (h : r ∈ m.free) : r ∈ m.runs :=
  List.mem_append_left _ h

theorem mem_runs_of_used {m : Arena} {r : Run} (h : r ∈ m.used) : r ∈ m.runs :=
  List.mem_append_right _ h

theorem fresh_sound (units : Nat) : (fresh units).Sound := by
  unfold fresh
  by_cases none : units = 0
  · simp only [if_pos none]
    refine ⟨⟨by simp [runs], by simp [runs], by simp [runs], by simp [runs], ?_⟩, by simp⟩
    intro u _ (high : u < units)
    omega
  · simp only [if_neg none]
    refine ⟨⟨?_, ?_, ?_, ?_, ?_⟩, ?_⟩
    · simp [runs]
      omega
    · simp [runs]
    · simp [runs, Run.stop]
    · simp [runs]
    · intro u _ high
      exact ⟨⟨0, units⟩, by simp [runs], Nat.zero_le _, by simpa [Run.stop] using high⟩
    · simp [Run.stop]
      omega

theorem perm_carved {α : Type} (before taken after used : List α) (x : α) :
    (before ++ taken ++ after ++ x :: used).Perm (x :: (taken ++ (before ++ after ++ used))) := by
  refine List.perm_middle.trans (List.Perm.cons x ?_)
  simp only [List.append_assoc]
  exact List.perm_append_comm_assoc ..

theorem runs_perm_of_split {m : Arena} {r : Run} {before after : List Run}
    (split : m.free = before ++ r :: after) : m.runs.Perm (r :: (before ++ after ++ m.used)) := by
  rw [runs, split]
  exact List.perm_middle.append_right m.used

namespace Sound

variable {m : Arena} {r f : Run} {size : Nat} {before after : List Run}

theorem free_not_used (h : m.Sound) (hf : f ∈ m.free) (hr : r ∈ m.used) : f ≠ r := by
  rintro rfl
  exact (List.nodup_append.1 h.partition.nodup).2.2 f hf f hr rfl

theorem nodup_free (h : m.Sound) : m.free.Nodup := (List.nodup_append.1 h.partition.nodup).1

theorem nodup_used (h : m.Sound) : m.used.Nodup := (List.nodup_append.1 h.partition.nodup).2.1

theorem eq_of_used_start {x : Run} (h : m.Sound) (hx : x ∈ m.used) (hr : r ∈ m.used)
    (start : x.start = r.start) : x = r :=
  h.partition.eq_of_start (mem_runs_of_used hx) (mem_runs_of_used hr) start

theorem apart_of_split (h : m.Sound) (split : m.free = before ++ r :: after)
    (hf : f ∈ before ++ after ++ m.used) : f ∈ m.runs ∧ f.Apart r := by
  have perm := runs_perm_of_split split
  have partition := h.partition.perm perm
  refine ⟨perm.mem_iff.2 (List.mem_cons_of_mem _ hf), ?_⟩
  exact ((List.pairwise_cons.1 partition.apart).1 f hf).symm

theorem total (h : m.Sound) : Run.total m.free + Run.total m.used = m.units := by
  have whole := h.partition.total (Nat.zero_le _)
  rwa [runs, Run.total_eq_sum, List.map_append, List.sum_append_nat, Nat.zero_add] at whole

theorem free_unique_start (h : m.Sound) (u : Nat) :
    ∀ a ∈ m.free, ∀ b ∈ m.free,
      decide (a.start = u) = true → decide (b.start = u) = true → a = b := by
  intro a ha b hb sa sb
  have sa := of_decide_eq_true sa
  have sb := of_decide_eq_true sb
  exact h.partition.eq_of_start (mem_runs_of_free ha) (mem_runs_of_free hb) (sa.trans sb.symm)

theorem free_unique_stop (h : m.Sound) (u : Nat) :
    ∀ a ∈ m.free, ∀ b ∈ m.free,
      decide (a.stop = u) = true → decide (b.stop = u) = true → a = b := by
  intro a ha b hb sa sb
  have sa := of_decide_eq_true sa
  have sb := of_decide_eq_true sb
  exact h.partition.eq_of_stop (mem_runs_of_free ha) (mem_runs_of_free hb) (sa.trans sb.symm)

theorem find?_used (h : m.Sound) (hr : r ∈ m.used) :
    m.used.find? (·.start = r.start) = some r := by
  have found : (m.used.find? (·.start = r.start)).isSome := by
    rw [List.find?_isSome]
    exact ⟨r, hr, by simp⟩
  obtain ⟨x, hx⟩ := Option.isSome_iff_exists.1 found
  have start := List.find?_some hx
  have same := h.eq_of_used_start (List.mem_of_find?_eq_some hx) hr (of_decide_eq_true start)
  rw [hx, same]

theorem used_perm (h : m.Sound) (hr : r ∈ m.used) :
    m.used.Perm (r :: m.used.filter (·.start ≠ r.start)) := by
  have perm := perm_find?_filter (p := (·.start = r.start)) h.nodup_used fun a ha b hb sa sb =>
    h.eq_of_used_start ha hb ((of_decide_eq_true sa).trans (of_decide_eq_true sb).symm)
  rw [h.find?_used hr] at perm
  simpa using perm

theorem carve (h : m.Sound) (free : m.free = before ++ r :: after) (positive : 0 < size)
    (fits : size ≤ r.size) : (m.carved before r after size).Sound := by
  have rFree : r ∈ m.free := by simp [free]
  have whole := h.partition.perm (runs_perm_of_split free)
  by_cases exact : r.size = size
  · subst exact
    have gone : rest r r.size = [] := if_pos rfl
    rw [carved, gone]
    refine ⟨whole.perm (perm_carved before [] after m.used r).symm,
      fun f hf g hg => h.spread f ?_ g ?_⟩
    · simp only [List.append_nil, List.mem_append, free, List.mem_cons] at *
      exact hf.imp_right Or.inr
    · simp only [List.append_nil, List.mem_append, free, List.mem_cons] at *
      exact hg.imp_right Or.inr
  · have left : rest r size = [⟨r.start + size, r.size - size⟩] := if_neg exact
    have stop : r.start + size + (r.size - size) = r.stop := by
      simp only [Run.stop]
      omega
    have parts := whole.split (a := ⟨r.start, size⟩) (b := ⟨r.start + size, r.size - size⟩) rfl rfl
      stop positive (by simp only; omega)
    rw [carved, left]
    refine ⟨parts.perm (perm_carved before [_] after m.used _).symm, ?_⟩
    · have old : ∀ f ∈ before ++ [⟨r.start + size, r.size - size⟩] ++ after,
          f ∈ m.free ∧ f ∈ before ++ after ∨ f = ⟨r.start + size, r.size - size⟩ := by
        intro f hf
        simp only [List.mem_append, free, List.mem_cons] at *
        grind
      have clear : ∀ f ∈ before ++ after, f.stop ≠ r.start + size := by
        intro f hf
        have apart := (List.pairwise_cons.1 whole.apart).1 f (List.mem_append_left _ hf)
        simp only [Run.Apart, Run.stop] at *
        omega
      intro f hf g hg
      rcases old f hf with ⟨fFree, fOther⟩ | rfl <;> rcases old g hg with ⟨gFree, gOther⟩ | rfl
      · exact h.spread f fFree g gFree
      · exact clear f fOther
      · have := h.spread r rFree g gFree
        simpa only [Run.stop, stop] using this
      · simp only [Run.stop]
        omega

end Sound

section Release

def above (m : Arena) (r : Run) : Option Run := m.free.find? fun f => f.stop = r.start

def below (m : Arena) (r : Run) : Option Run := m.free.find? fun f => f.start = r.stop

def freeBesideAbove (m : Arena) (r : Run) : List Run :=
  m.free.filter fun f => !decide (f.stop = r.start)

def freeApart (m : Arena) (r : Run) : List Run :=
  (m.freeBesideAbove r).filter fun f => !decide (f.start = r.stop)

variable {m : Arena} {r f : Run}

theorem stop_of_above (h : m.above r = some f) : f.stop = r.start := by
  simpa using List.find?_some h

theorem start_of_below (h : m.below r = some f) : f.start = r.stop := by
  simpa using List.find?_some h

theorem freeApart_eq (m : Arena) (r : Run) :
    m.free.filter (fun f => decide (f.stop ≠ r.start ∧ f.start ≠ r.stop)) = m.freeApart r := by
  rw [freeApart, freeBesideAbove, List.filter_filter]
  refine List.filter_congr fun f _ => ?_
  by_cases start : f.start = r.stop <;> by_cases stop : f.stop = r.start <;> simp [start, stop]

theorem release_eq (m : Arena) (r : Run) :
    m.release r = (join r (m.above r) (m.below r),
      { m with free := join r (m.above r) (m.below r) :: m.freeApart r,
               used := m.used.filter (·.start ≠ r.start) }) := by
  rw [← freeApart_eq]
  rfl

theorem stop_join_above (m : Arena) (r : Run) : (join r (m.above r) none).stop = r.stop := by
  cases found : m.above r with
  | none => simp [join]
  | some f =>
    have meet := stop_of_above found
    simp only [join, Run.stop, Option.map_some, Option.getD_some, Option.map_none,
      Option.getD_none] at *
    omega

theorem stop_join (m : Arena) (r : Run) :
    (join r (m.above r) (m.below r)).stop = ((m.below r).map Run.stop).getD r.stop := by
  have stop := stop_join_above m r
  cases found : m.below r with
  | none => exact stop
  | some f =>
    have meet := start_of_below found
    simp only [join, Run.stop, Option.map_some, Option.getD_some, Option.map_none,
      Option.getD_none] at *
    omega

theorem grows_above (m : Arena) (r : Run) : Grows r (join r (m.above r) none) (m.above r) := by
  have stop := stop_join_above m r
  cases found : m.above r with
  | none => exact .alone (by simp [join])
  | some f =>
    rw [found] at stop
    exact .above rfl (stop_of_above found) stop.symm

theorem grows_below (m : Arena) (r : Run) :
    Grows (join r (m.above r) none) (join r (m.above r) (m.below r)) (m.below r) := by
  have stop := stop_join m r
  cases found : m.below r with
  | none => exact .alone rfl
  | some f =>
    rw [found] at stop
    exact .below rfl ((stop_join_above m r).trans (start_of_below found).symm) stop.symm

theorem find?_freeBesideAbove (positive : 0 < r.size) :
    (m.freeBesideAbove r).find? (fun f => decide (f.start = r.stop)) = m.below r := by
  rw [freeBesideAbove, List.find?_filter, below]
  congr 1
  funext f
  refine decide_eq_decide.2 ⟨fun both => of_decide_eq_true both.2, fun start => ⟨?_, by simpa⟩⟩
  have apart : f.stop ≠ r.start := by
    simp only [Run.stop] at *
    omega
  simpa using apart

theorem Sound.release (h : m.Sound) (hr : r ∈ m.used) : (m.release r).2.Sound := by
  have positive : 0 < r.size := h.partition.positive r (mem_runs_of_used hr)
  have front : m.runs.Perm (r :: (m.free ++ m.used.filter (·.start ≠ r.start))) :=
    ((h.used_perm hr).append_left m.free).trans List.perm_middle
  have first : Partition 0 m.units (join r (m.above r) none ::
      (m.freeBesideAbove r ++ m.used.filter (·.start ≠ r.start))) :=
    (h.partition.perm front).grow (h.free_unique_stop r.start) (grows_above m r)
  have second : Partition 0 m.units (join r (m.above r) (m.below r) ::
      (m.freeApart r ++ m.used.filter (·.start ≠ r.start))) := by
    refine first.grow (fun a ha b hb => ?_) ?_
    · exact h.free_unique_start r.stop a (List.mem_filter.1 ha).1 b (List.mem_filter.1 hb).1
    · rw [find?_freeBesideAbove positive]
      exact grows_below m r
  have apart : ∀ f ∈ m.freeApart r, f ∈ m.free ∧ f.stop ≠ r.start ∧ f.start ≠ r.stop := by
    intro f hf
    rw [← freeApart_eq] at hf
    simpa using hf
  have wholePositive := second.start_lt_stop List.mem_cons_self
  have start : ∀ f ∈ m.freeApart r, f.stop ≠ (join r (m.above r) (m.below r)).start := by
    intro f hf
    obtain ⟨fFree, stop, -⟩ := apart f hf
    cases found : m.above r with
    | none => simpa [join] using stop
    | some g =>
      have gFree : g ∈ m.free := List.mem_of_find?_eq_some found
      simpa [join] using h.spread f fFree g gFree
  have stop : ∀ f ∈ m.freeApart r, (join r (m.above r) (m.below r)).stop ≠ f.start := by
    intro f hf
    obtain ⟨fFree, -, start⟩ := apart f hf
    rw [stop_join]
    cases found : m.below r with
    | none => exact start.symm
    | some g =>
      have gFree : g ∈ m.free := List.mem_of_find?_eq_some found
      exact h.spread g gFree f fFree
  rw [release_eq]
  refine ⟨second, ?_⟩
  intro f hf g hg
  rcases List.mem_cons.1 hf with rfl | hf <;> rcases List.mem_cons.1 hg with rfl | hg
  · omega
  · exact stop g hg
  · exact start f hf
  · exact h.spread f (apart f hf).1 g (apart g hg).1

end Release

end Arena

end FirstFit
