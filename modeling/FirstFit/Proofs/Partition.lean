import FirstFit.Run
import Mathlib.Algebra.BigOperators.Group.List.Basic
import Mathlib.Algebra.GroupWithZero.Nat

namespace FirstFit

namespace Run

theorem total_eq_sum (runs : List Run) : total runs = (runs.map (·.size)).sum := rfl

theorem Contiguous.total {u v : Nat} {runs : List Run} (h : Contiguous u runs v) :
    u + Run.total runs = v := by
  induction runs generalizing u with
  | nil => exact h
  | cons r rest ih =>
    obtain ⟨start, -, tail⟩ := h
    have := ih tail
    simp only [total_eq_sum, Run.stop, List.map_cons, List.sum_cons] at *
    omega

theorem length_le_total {runs : List Run} (positive : ∀ r ∈ runs, 0 < r.size) :
    runs.length ≤ total runs := by
  have sizes : ∀ n ∈ runs.map (·.size), 1 ≤ n := List.forall_mem_map.2 positive
  simpa [total_eq_sum] using List.length_le_sum_of_one_le _ sizes

end Run

structure Partition (lo hi : Nat) (runs : List Run) : Prop where
  positive : ∀ r ∈ runs, 0 < r.size
  above : ∀ r ∈ runs, lo ≤ r.start
  below : ∀ r ∈ runs, r.stop ≤ hi
  apart : runs.Pairwise Run.Apart
  covers : ∀ u, lo ≤ u → u < hi → ∃ r ∈ runs, r.Contains u

namespace Partition

variable {lo hi : Nat} {runs rest : List Run} {r s : Run}

theorem perm {xs ys : List Run} (h : Partition lo hi xs) (p : xs.Perm ys) :
    Partition lo hi ys where
  positive := fun r hr => h.positive r (p.mem_iff.2 hr)
  above := fun r hr => h.above r (p.mem_iff.2 hr)
  below := fun r hr => h.below r (p.mem_iff.2 hr)
  apart := h.apart.perm p Run.Apart.symm
  covers := by
    intro u low high
    obtain ⟨r, hr, inside⟩ := h.covers u low high
    exact ⟨r, p.mem_iff.1 hr, inside⟩

theorem start_lt_stop (h : Partition lo hi runs) (hr : r ∈ runs) : r.start < r.stop := by
  have := h.positive r hr
  unfold Run.stop
  omega

theorem apart_of_ne (h : Partition lo hi runs) (hr : r ∈ runs) (hs : s ∈ runs) (ne : r ≠ s) :
    r.Apart s := by
  have front := h.perm (List.perm_cons_erase hr)
  have inRest : s ∈ runs.erase r := (List.mem_erase_of_ne (Ne.symm ne)).2 hs
  exact (List.pairwise_cons.1 front.apart).1 s inRest

theorem eq_of_contains {u : Nat} (h : Partition lo hi runs) (hr : r ∈ runs) (hs : s ∈ runs)
    (inR : r.Contains u) (inS : s.Contains u) : r = s := by
  apply Classical.byContradiction
  intro ne
  have apart := h.apart_of_ne hr hs ne
  simp only [Run.Apart, Run.Contains] at *
  omega

theorem eq_of_start (h : Partition lo hi runs) (hr : r ∈ runs) (hs : s ∈ runs)
    (start : r.start = s.start) : r = s := by
  have inR : r.Contains r.start := ⟨Nat.le_refl _, h.start_lt_stop hr⟩
  have inS : s.Contains r.start := ⟨Nat.le_of_eq start.symm, start ▸ h.start_lt_stop hs⟩
  exact h.eq_of_contains hr hs inR inS

theorem eq_of_stop (h : Partition lo hi runs) (hr : r ∈ runs) (hs : s ∈ runs)
    (stop : r.stop = s.stop) : r = s := by
  have lastR := h.start_lt_stop hr
  have lastS := h.start_lt_stop hs
  exact h.eq_of_contains (u := r.stop - 1) hr hs ⟨by omega, by omega⟩ ⟨by omega, by omega⟩

theorem nodup (h : Partition lo hi runs) : runs.Nodup := by
  refine h.apart.imp_of_mem fun hr _ apart eq => ?_
  have := h.start_lt_stop hr
  subst eq
  simp only [Run.Apart] at apart
  omega

section Join

variable {whole a b : Run}

theorem split (h : Partition lo hi (whole :: rest)) (start : a.start = whole.start)
    (meet : a.stop = b.start) (stop : b.stop = whole.stop) (ha : 0 < a.size) (hb : 0 < b.size) :
    Partition lo hi (a :: b :: rest) := by
  have wholeIn : whole ∈ whole :: rest := List.mem_cons_self
  have low := h.above whole wholeIn
  have high := h.below whole wholeIn
  obtain ⟨fromWhole, others⟩ := List.pairwise_cons.1 h.apart
  simp only [Run.stop] at *
  refine ⟨?_, ?_, ?_, ?_, ?_⟩
  · simp only [List.forall_mem_cons]
    exact ⟨ha, hb, fun x hx => h.positive x (List.mem_cons_of_mem _ hx)⟩
  · simp only [List.forall_mem_cons]
    exact ⟨by omega, by omega, fun x hx => h.above x (List.mem_cons_of_mem _ hx)⟩
  · simp only [List.forall_mem_cons, Run.stop]
    exact ⟨by omega, by omega, fun x hx => h.below x (List.mem_cons_of_mem _ hx)⟩
  · simp only [List.pairwise_cons, List.forall_mem_cons]
    refine ⟨⟨?_, fun x hx => ?_⟩, fun x hx => ?_, others⟩
    · exact Or.inl (Nat.le_of_eq meet)
    · have := fromWhole x hx
      simp only [Run.Apart, Run.stop] at *
      omega
    · have := fromWhole x hx
      simp only [Run.Apart, Run.stop] at *
      omega
  · intro u hlow hhigh
    obtain ⟨x, hx, inside⟩ := h.covers u hlow hhigh
    simp only [Run.Contains, Run.stop] at inside ⊢
    rcases List.mem_cons.1 hx with rfl | hx
    · by_cases left : u < b.start
      · exact ⟨a, by simp, by omega, by omega⟩
      · exact ⟨b, by simp, by omega, by omega⟩
    · exact ⟨x, by simp [hx], inside⟩

theorem join (h : Partition lo hi (a :: b :: rest)) (start : a.start = whole.start)
    (meet : a.stop = b.start) (stop : b.stop = whole.stop) : Partition lo hi (whole :: rest) := by
  have aIn : a ∈ a :: b :: rest := List.mem_cons_self
  have bIn : b ∈ a :: b :: rest := List.mem_cons_of_mem _ List.mem_cons_self
  have deeper {x : Run} (hx : x ∈ rest) : x ∈ a :: b :: rest := by simp [hx]
  have ha := h.positive a aIn
  have hb := h.positive b bIn
  have low := h.above a aIn
  have high := h.below b bIn
  obtain ⟨fromA, tailApart⟩ := List.pairwise_cons.1 h.apart
  obtain ⟨fromB, others⟩ := List.pairwise_cons.1 tailApart
  simp only [Run.stop] at *
  refine ⟨?_, ?_, ?_, ?_, ?_⟩
  · simp only [List.forall_mem_cons]
    exact ⟨by omega, fun x hx => h.positive x (deeper hx)⟩
  · simp only [List.forall_mem_cons]
    exact ⟨by omega, fun x hx => h.above x (deeper hx)⟩
  · simp only [List.forall_mem_cons, Run.stop]
    exact ⟨by omega, fun x hx => h.below x (deeper hx)⟩
  · refine List.pairwise_cons.2 ⟨fun x hx => ?_, others⟩
    have := fromA x (List.mem_cons_of_mem _ hx)
    have := fromB x hx
    -- a run of one unit or more finds no room between the two
    have := h.positive x (deeper hx)
    simp only [Run.Apart, Run.stop] at *
    omega
  · intro u hlow hhigh
    obtain ⟨x, hx, inside⟩ := h.covers u hlow hhigh
    simp only [Run.Contains, Run.stop] at inside ⊢
    rcases List.mem_cons.1 hx with rfl | hx
    · exact ⟨whole, by simp, by omega, by omega⟩
    · rcases List.mem_cons.1 hx with rfl | hx
      · exact ⟨whole, by simp, by omega, by omega⟩
      · exact ⟨x, by simp [hx], inside⟩

end Join

theorem exists_start (h : Partition lo hi runs) (hr : r ∈ runs) (more : r.stop < hi) :
    ∃ s ∈ runs, s.start = r.stop := by
  have low := h.above r hr
  have size := h.start_lt_stop hr
  obtain ⟨s, hs, inside⟩ := h.covers r.stop (by omega) more
  refine ⟨s, hs, ?_⟩
  have ne : r ≠ s := by
    rintro rfl
    exact Nat.lt_irrefl _ inside.2
  have apart := h.apart_of_ne hr hs ne
  simp only [Run.Apart, Run.Contains] at *
  omega

theorem exists_stop (h : Partition lo hi runs) (hr : r ∈ runs) (more : lo < r.start) :
    ∃ s ∈ runs, s.stop = r.start := by
  have high := h.below r hr
  have size := h.start_lt_stop hr
  obtain ⟨s, hs, inside⟩ := h.covers (r.start - 1) (by omega) (by omega)
  refine ⟨s, hs, ?_⟩
  have ne : r ≠ s := by
    rintro rfl
    have := inside.1
    omega
  have apart := h.apart_of_ne hr hs ne
  simp only [Run.Apart, Run.Contains] at *
  omega

theorem tail_of_least (h : Partition lo hi (r :: rest))
    (least : ∀ s ∈ rest, r.start ≤ s.start) : r.start = lo ∧ Partition r.stop hi rest := by
  have rIn : r ∈ r :: rest := List.mem_cons_self
  have low := h.above r rIn
  have high := h.below r rIn
  have size := h.start_lt_stop rIn
  obtain ⟨fromR, others⟩ := List.pairwise_cons.1 h.apart
  constructor
  · obtain ⟨s, hs, inside⟩ := h.covers lo (Nat.le_refl _) (by omega)
    have := h.above s hs
    have first : r.start ≤ s.start := by
      rcases List.mem_cons.1 hs with rfl | hs
      · exact Nat.le_refl _
      · exact least s hs
    have := inside.1
    omega
  · refine ⟨fun s hs => ?_, fun s hs => ?_, fun s hs => ?_, others, fun u hlow hhigh => ?_⟩
    · exact h.positive s (List.mem_cons_of_mem _ hs)
    · have := least s hs
      have := fromR s hs
      have := h.start_lt_stop (List.mem_cons_of_mem r hs)
      simp only [Run.Apart] at *
      omega
    · exact h.below s (List.mem_cons_of_mem _ hs)
    · obtain ⟨s, hs, inside⟩ := h.covers u (by omega) hhigh
      rcases List.mem_cons.1 hs with rfl | hs
      · have := inside.2
        omega
      · exact ⟨s, hs, inside⟩

theorem contiguous_of_sorted (h : Partition lo hi runs) (le : lo ≤ hi)
    (sorted : runs.Pairwise fun r s => r.start ≤ s.start) : Run.Contiguous lo runs hi := by
  induction runs generalizing lo with
  | nil =>
    apply Classical.byContradiction
    intro ne
    have lt : lo < hi := Nat.lt_of_le_of_ne le ne
    obtain ⟨r, hr, -⟩ := h.covers lo (Nat.le_refl _) lt
    exact List.not_mem_nil hr
  | cons r rest ih =>
    obtain ⟨least, sortedRest⟩ := List.pairwise_cons.1 sorted
    obtain ⟨start, tail⟩ := h.tail_of_least least
    have size := h.positive r List.mem_cons_self
    have high := h.below r List.mem_cons_self
    exact ⟨start, size, ih tail high sortedRest⟩

theorem exists_contiguous (h : Partition lo hi runs) (le : lo ≤ hi) :
    ∃ inOrder : List Run, inOrder.Perm runs ∧ Run.Contiguous lo inOrder hi := by
  let before := fun r s : Run => decide (r.start ≤ s.start)
  have perm : (runs.mergeSort before).Perm runs := List.mergeSort_perm runs before
  have sorted : (runs.mergeSort before).Pairwise fun r s => before r s = true := by
    apply List.pairwise_mergeSort
    · intro a b c ab bc
      simp only [before, decide_eq_true_eq] at *
      omega
    · intro a b
      simp only [before, Bool.or_eq_true, decide_eq_true_eq]
      omega
  refine ⟨runs.mergeSort before, perm, ?_⟩
  exact (h.perm perm.symm).contiguous_of_sorted le (sorted.imp of_decide_eq_true)

theorem total (h : Partition lo hi runs) (le : lo ≤ hi) : lo + Run.total runs = hi := by
  obtain ⟨inOrder, perm, contiguous⟩ := h.exists_contiguous le
  rw [Run.total_eq_sum, ← (perm.map _).sum_nat]
  exact contiguous.total

theorem countP_contains {u : Nat} (h : Partition lo hi runs) (low : lo ≤ u) (high : u < hi) :
    runs.countP (fun r => r.Contains u) = 1 := by
  obtain ⟨r, hr, inside⟩ := h.covers u low high
  have front := List.perm_cons_erase hr
  have none : (runs.erase r).countP (fun s => s.Contains u) = 0 := by
    rw [List.countP_eq_zero]
    intro s hs inS
    have apart := (List.pairwise_cons.1 (h.perm front).apart).1 s hs
    have inS := of_decide_eq_true inS
    simp only [Run.Apart, Run.Contains] at *
    omega
  rw [front.countP_eq, List.countP_cons_of_pos (by simpa using inside), none]

theorem of_contiguous {u v : Nat} (h : Run.Contiguous u runs v) : Partition u v runs := by
  induction runs generalizing u with
  | nil =>
    cases (h : u = v)
    exact ⟨by simp, by simp, by simp, .nil, fun w low high => by omega⟩
  | cons r rest ih =>
    obtain ⟨rfl, size, tail⟩ := h
    have tiled := ih tail
    have fits : r.stop ≤ v := by
      have := tail.total
      omega
    have start : r.start ≤ r.stop := Nat.le_add_right ..
    refine ⟨?_, ?_, ?_, ?_, ?_⟩
    · exact List.forall_mem_cons.2 ⟨size, tiled.positive⟩
    · refine List.forall_mem_cons.2 ⟨Nat.le_refl _, fun s hs => ?_⟩
      exact Nat.le_trans start (tiled.above s hs)
    · exact List.forall_mem_cons.2 ⟨fits, tiled.below⟩
    · exact List.pairwise_cons.2 ⟨fun s hs => Or.inl (tiled.above s hs), tiled.apart⟩
    · intro w low high
      by_cases inR : w < r.stop
      · exact ⟨r, List.mem_cons_self, low, inR⟩
      · obtain ⟨s, hs, inside⟩ := tiled.covers w (by omega) high
        exact ⟨s, List.mem_cons_of_mem _ hs, inside⟩

end Partition

end FirstFit
