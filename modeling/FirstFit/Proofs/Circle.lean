import FirstFit.Table.Links

namespace FirstFit.Table

section Links

variable {link link' : Int → Except Fault Int} {u v x y : Int} {stops before after : List Int}

theorem Leads.first (h : Leads link u stops v) : link u = .ok (stops.headD v) := by
  cases stops with
  | nil => exact h
  | cons x rest => exact h.1

theorem Leads.last (h : Leads link u stops v) : link (stops.getLastD u) = .ok v := by
  induction stops generalizing u with
  | nil => exact h
  | cons x rest ih =>
    rw [List.getLastD_cons]
    exact ih h.2

theorem Leads.retarget (h : Leads link u stops v) (distinct : (u :: stops).Nodup)
    (last : link' (stops.getLastD u) = .ok y)
    (same : ∀ w ∈ u :: stops, w ≠ stops.getLastD u → link' w = link w) :
    Leads link' u stops y := by
  induction stops generalizing u with
  | nil => exact last
  | cons x rest ih =>
    rw [List.getLastD_cons] at last same
    obtain ⟨fresh, distinctRest⟩ := List.nodup_cons.1 distinct
    have apart : u ≠ rest.getLastD x := by
      rintro rfl
      exact fresh List.getLastD_mem_cons
    have here : link' u = link u := same u List.mem_cons_self apart
    exact ⟨here.trans h.1, ih h.2 distinctRest last fun w hw =>
      same w (List.mem_cons_of_mem _ hw)⟩

theorem Leads.rebase (h : Leads link u stops v) (first : link' y = link u)
    (same : ∀ w ∈ stops, link' w = link w) : Leads link' y stops v := by
  cases stops with
  | nil => exact first.trans h
  | cons x rest => exact ⟨first.trans h.1, (leads_congr same).2 h.2⟩

theorem Leads.replace (h : Leads link u (before ++ x :: after) v)
    (distinct : (u :: before ++ x :: after).Nodup)
    (enter : link' (before.getLastD u) = .ok y) (leave : link' y = link x)
    (same : ∀ w ∈ u :: before ++ after, w ≠ before.getLastD u → link' w = link w) :
    Leads link' u (before ++ y :: after) v := by
  obtain ⟨inward, outward⟩ := leads_append.1 h
  obtain ⟨distinctBefore, -, across⟩ := List.nodup_append.1 distinct
  refine leads_append.2 ⟨?_, ?_⟩
  · exact inward.retarget distinctBefore enter fun w hw => same w (List.mem_append_left _ hw)
  · refine outward.rebase leave fun w hw => same w (List.mem_append_right _ hw) ?_
    rintro rfl
    exact across _ List.getLastD_mem_cons _ (List.mem_cons_of_mem _ hw) rfl

theorem Leads.remove (h : Leads link u (before ++ x :: after) v)
    (distinct : (u :: before ++ x :: after).Nodup)
    (bypass : link' (before.getLastD u) = link x)
    (same : ∀ w ∈ u :: before ++ after, w ≠ before.getLastD u → link' w = link w) :
    Leads link' u (before ++ after) v := by
  obtain ⟨inward, outward⟩ := leads_append.1 h
  obtain ⟨distinctBefore, -, across⟩ := List.nodup_append.1 distinct
  have kept {y : Int} (target : link x = .ok y) : Leads link' u before y :=
    inward.retarget distinctBefore (bypass.trans target) fun w hw =>
      same w (List.mem_append_left _ hw)
  cases after with
  | nil =>
    rw [List.append_nil]
    exact kept outward
  | cons y rest =>
    refine leads_append.2 ⟨kept outward.1, ?_⟩
    refine (leads_congr fun w hw => same w (List.mem_append_right _ hw) ?_).2 outward.2
    rintro rfl
    exact across _ List.getLastD_mem_cons _ (List.mem_cons_of_mem _ hw) rfl

theorem Leads.insert (h : Leads link u (before ++ after) v)
    (distinct : (u :: before ++ after).Nodup)
    (enter : link' (before.getLastD u) = .ok y) (leave : link' y = link (before.getLastD u))
    (same : ∀ w ∈ u :: before ++ after, w ≠ before.getLastD u → link' w = link w) :
    Leads link' u (before ++ y :: after) v := by
  obtain ⟨distinctBefore, -, across⟩ := List.nodup_append.1 distinct
  have kept {z : Int} (inward : Leads link u before z) : Leads link' u before y :=
    inward.retarget distinctBefore enter fun w hw => same w (List.mem_append_left _ hw)
  refine leads_append.2 ?_
  cases after with
  | nil =>
    rw [List.append_nil] at h
    exact ⟨kept h, leave.trans h.last⟩
  | cons z rest =>
    obtain ⟨inward, outward⟩ := leads_append.1 h
    refine ⟨kept inward, leave.trans inward.last, ?_⟩
    refine (leads_congr fun w hw => same w (List.mem_append_right _ hw) ?_).2 outward
    rintro rfl
    exact across _ List.getLastD_mem_cons _ hw rfl

end Links

namespace Chain

variable {s t : Table} {x y : Int} {stops before after : List Int}

theorem head_not_mem (h : s.Chain stops) : head ∉ stops := by
  intro hm
  have := (h.inside head hm).1
  rw [head_eq] at this
  omega

theorem nodup_head (h : s.Chain stops) : (head :: stops).Nodup :=
  List.nodup_cons.2 ⟨h.head_not_mem, h.distinct⟩

theorem nodup_head_reverse (h : s.Chain stops) : (head :: stops.reverse).Nodup :=
  List.nodup_cons.2 ⟨by simpa using h.head_not_mem, by simpa [List.Nodup, List.pairwise_reverse,
    ne_comm] using h.distinct⟩

theorem congr (h : s.Chain stops) (units : t.units = s.units)
    (next : ∀ v ∈ head :: stops, t.next v = s.next v)
    (prev : ∀ v ∈ head :: stops, t.prev v = s.prev v) : t.Chain stops where
  forward := (leads_congr next).2 h.forward
  backward := by
    refine (leads_congr fun v hv => prev v ?_).2 h.backward
    simpa using hv
  distinct := h.distinct
  inside := by
    rw [units]
    exact h.inside

theorem headD_reverse (stops : List Int) : stops.reverse.headD head = stops.getLastD head := by
  simp [List.head?_reverse]

theorem getLastD_reverse (stops : List Int) : stops.reverse.getLastD head = stops.headD head := by
  simp [List.getLast?_reverse]

theorem next_eq (h : s.Chain (before ++ x :: after)) : s.next x = .ok (after.headD head) :=
  (leads_append.1 h.forward).2.first

theorem backward_around (h : s.Chain (before ++ x :: after)) :
    Leads s.prev head (after.reverse ++ x :: before.reverse) head ∧
      (head :: (after.reverse ++ x :: before.reverse)).Nodup := by
  have around : (before ++ x :: after).reverse = after.reverse ++ x :: before.reverse := by simp
  rw [← around]
  exact ⟨h.backward, h.nodup_head_reverse⟩

theorem prev_eq (h : s.Chain (before ++ x :: after)) : s.prev x = .ok (before.getLastD head) := by
  rw [← headD_reverse]
  exact (leads_append.1 h.backward_around.1).2.first

theorem next_head (h : s.Chain stops) : s.next head = .ok (stops.headD head) :=
  h.forward.first

theorem prev_headD (h : s.Chain stops) : s.prev (stops.headD head) = .ok head := by
  rw [← getLastD_reverse]
  exact h.backward.last

theorem remove (h : s.Chain (before ++ x :: after)) (units : t.units = s.units)
    (nextBypass : t.next (before.getLastD head) = .ok (after.headD head))
    (prevBypass : t.prev (after.headD head) = .ok (before.getLastD head))
    (next : ∀ v ∈ head :: before ++ after, v ≠ before.getLastD head → t.next v = s.next v)
    (prev : ∀ v ∈ head :: before ++ after, v ≠ after.headD head → t.prev v = s.prev v) :
    t.Chain (before ++ after) where
  forward := h.forward.remove h.nodup_head (nextBypass.trans h.next_eq.symm) next
  backward := by
    obtain ⟨back, distinct⟩ := h.backward_around
    rw [List.reverse_append]
    refine back.remove distinct ?_ fun v hv => ?_
    · rw [getLastD_reverse]
      exact prevBypass.trans h.prev_eq.symm
    · rw [getLastD_reverse]
      exact prev v (by simpa [or_comm, or_left_comm] using hv)
  distinct := h.distinct.sublist (List.Sublist.append_left (List.sublist_cons_self ..) _)
  inside := by
    rw [units]
    intro v hv
    refine h.inside v ?_
    simp only [List.mem_append, List.mem_cons] at hv ⊢
    exact hv.imp_right Or.inr

theorem replace (h : s.Chain (before ++ x :: after)) (units : t.units = s.units)
    (fresh : y ∉ before ++ after) (inside : 0 ≤ y ∧ y < s.units)
    (nextEnter : t.next (before.getLastD head) = .ok y)
    (nextLeave : t.next y = .ok (after.headD head))
    (prevEnter : t.prev (after.headD head) = .ok y)
    (prevLeave : t.prev y = .ok (before.getLastD head))
    (next : ∀ v ∈ head :: before ++ after, v ≠ before.getLastD head → t.next v = s.next v)
    (prev : ∀ v ∈ head :: before ++ after, v ≠ after.headD head → t.prev v = s.prev v) :
    t.Chain (before ++ y :: after) where
  forward := h.forward.replace h.nodup_head nextEnter (nextLeave.trans h.next_eq.symm) next
  backward := by
    obtain ⟨back, distinct⟩ := h.backward_around
    rw [List.reverse_append, List.reverse_cons, List.append_assoc, List.singleton_append]
    refine back.replace distinct ?_ (prevLeave.trans h.prev_eq.symm) fun v hv => ?_
    · rw [getLastD_reverse]
      exact prevEnter
    · rw [getLastD_reverse]
      exact prev v (by simpa [or_comm, or_left_comm] using hv)
  distinct := by
    have distinct : (before ++ after).Nodup :=
      h.distinct.sublist (List.Sublist.append_left (List.sublist_cons_self ..) _)
    exact List.perm_middle.nodup_iff.2 (List.nodup_cons.2 ⟨fresh, distinct⟩)
  inside := by
    rw [units]
    intro v hv
    simp only [List.mem_append, List.mem_cons] at hv
    rcases hv with hv | rfl | hv
    · exact h.inside v (List.mem_append_left _ hv)
    · exact inside
    · exact h.inside v (List.mem_append_right _ (List.mem_cons_of_mem _ hv))

theorem insertFront (h : s.Chain stops) (units : t.units = s.units)
    (fresh : y ∉ stops) (inside : 0 ≤ y ∧ y < s.units)
    (nextEnter : t.next head = .ok y) (nextLeave : t.next y = .ok (stops.headD head))
    (prevEnter : t.prev (stops.headD head) = .ok y) (prevLeave : t.prev y = .ok head)
    (next : ∀ v ∈ stops, t.next v = s.next v)
    (prev : ∀ v ∈ head :: stops, v ≠ stops.headD head → t.prev v = s.prev v) :
    t.Chain (y :: stops) where
  forward := ⟨nextEnter, h.forward.rebase (nextLeave.trans h.next_head.symm) next⟩
  backward := by
    rw [List.reverse_cons]
    refine Leads.insert (by simpa using h.backward) (by simpa using h.nodup_head_reverse) ?_ ?_
      fun v hv => ?_
    · rw [getLastD_reverse]
      exact prevEnter
    · rw [getLastD_reverse]
      exact prevLeave.trans h.prev_headD.symm
    · rw [getLastD_reverse]
      exact prev v (by simpa using hv)
  distinct := List.nodup_cons.2 ⟨fresh, h.distinct⟩
  inside := by
    rw [units]
    exact List.forall_mem_cons.2 ⟨inside, h.inside⟩

theorem prev_head (h : s.Chain stops) : s.prev head = .ok (stops.getLastD head) := by
  rw [← headD_reverse]
  exact h.backward.first

theorem next_getLastD (h : s.Chain stops) : s.next (stops.getLastD head) = .ok head :=
  h.forward.last

theorem links_eq (hs : s.Chain stops) (ht : t.Chain stops) {v : Int} (hv : v ∈ head :: stops) :
    s.next v = t.next v ∧ s.prev v = t.prev v := by
  rcases List.mem_cons.1 hv with rfl | hv
  · exact ⟨hs.next_head.trans ht.next_head.symm, hs.prev_head.trans ht.prev_head.symm⟩
  · obtain ⟨before, after, rfl⟩ := List.append_of_mem hv
    exact ⟨hs.next_eq.trans ht.next_eq.symm, hs.prev_eq.trans ht.prev_eq.symm⟩

theorem prev_next (h : s.Chain stops) {u : Int} (hu : u ∈ head :: stops) :
    ∃ v, s.next u = .ok v ∧ s.prev v = .ok u := by
  rcases List.mem_cons.1 hu with rfl | hu
  · exact ⟨_, h.next_head, h.prev_headD⟩
  · obtain ⟨before, after, rfl⟩ := List.append_of_mem hu
    refine ⟨_, h.next_eq, ?_⟩
    cases after with
    | nil =>
      have back := h.prev_head
      simpa using back
    | cons y rest =>
      rw [List.append_cons] at h
      have back := h.prev_eq
      simpa using back

theorem next_prev (h : s.Chain stops) {u : Int} (hu : u ∈ head :: stops) :
    ∃ v, s.prev u = .ok v ∧ s.next v = .ok u := by
  rcases List.mem_cons.1 hu with rfl | hu
  · exact ⟨_, h.prev_head, h.next_getLastD⟩
  · obtain ⟨before, after, rfl⟩ := List.append_of_mem hu
    refine ⟨_, h.prev_eq, ?_⟩
    rcases List.eq_nil_or_concat before with rfl | ⟨others, y, rfl⟩
    · exact h.next_head
    · rw [List.concat_eq_append, List.append_assoc, List.singleton_append] at h
      have forth := h.next_eq
      simpa using forth

end Chain

end FirstFit.Table
