import Wasm.Stack

/-!
# Wasm.Proofs.Stack

What the operations on the operand stack do to its cells, seen as what lies below and what lies on
top of it, and how they can fail.
-/

namespace Wasm.Stack

variable {s s' : Stack}

/-! ## Putting cells on top -/

/-- A cell that is pushed lies on top. -/
theorem push_eq_ok (h : push c s = .ok a s') : s' = ⟨s.cells.push c, s.limit⟩ := by
  unfold push at h
  split at h
  · contradiction
  · cases h
    rfl

/-- A full stack refuses a cell and stays as it is. -/
theorem push_eq_error (h : push c s = .error t s') : t = .stackOverflow ∧ s' = s := by
  unfold push at h
  split at h
  · cases h
    exact ⟨rfl, rfl⟩
  · contradiction

/-- Cells are pushed in order, the last one ends on top. -/
theorem pushAll_eq_ok (h : pushAll cs s = .ok a s') : s' = ⟨s.cells ++ cs.toArray, s.limit⟩ := by
  induction cs generalizing s with
  | nil =>
    cases h
    simp
  | cons c cs ih =>
    simp only [pushAll, Bind.bind, EStateM.bind] at h
    cases hpush : push c s with
    | ok _ s₁ =>
      rw [hpush] at h
      rw [ih h, push_eq_ok hpush]
      simp
    | error t s₁ =>
      rw [hpush] at h
      contradiction

/-- Some of the cells may have been pushed by then, but only for want of room does it end early. -/
theorem pushAll_eq_error (h : pushAll cs s = .error t s') :
    t = .stackOverflow ∧ s'.limit = s.limit := by
  induction cs generalizing s with
  | nil => contradiction
  | cons c cs ih =>
    simp only [pushAll, Bind.bind, EStateM.bind] at h
    cases hpush : push c s with
    | ok _ s₁ =>
      rw [hpush] at h
      have hrest := ih h
      rwa [push_eq_ok hpush] at hrest
    | error t' s₁ =>
      rw [hpush] at h
      cases h
      obtain ⟨rfl, rfl⟩ := push_eq_error hpush
      exact ⟨rfl, rfl⟩

/-! ## Taking cells from the top -/

/-- A stack that is high enough has some cells on top of others. -/
theorem exists_append (s : Stack) (h : n ≤ s.size) :
    ∃ xs ys : Array UInt64, s.cells = xs ++ ys ∧ ys.size = n := by
  refine ⟨s.cells.extract 0 (s.cells.size - n), s.cells.extract (s.cells.size - n), by simp, ?_⟩
  rw [size] at h
  simp only [Array.size_extract]
  omega

/-- A stack that is not empty has a cell on top. -/
theorem exists_push (s : Stack) (h : 0 < s.size) :
    ∃ (xs : Array UInt64) (c : UInt64), s.cells = xs.push c := by
  obtain ⟨xs, ys, hcells, hsize⟩ := s.exists_append h
  obtain ⟨c, rfl⟩ := Array.size_eq_one_iff.mp hsize
  exact ⟨xs, c, hcells⟩

/-- The cell on top is the one that is taken. -/
theorem pop_push (xs : Array UInt64) (c : UInt64) (limit : Nat) :
    pop ⟨xs.push c, limit⟩ = .ok c ⟨xs, limit⟩ := by
  simp [pop]

/-- A cell that was taken has been on top. -/
theorem pop_eq_ok (h : pop s = .ok c s') : s = ⟨s'.cells.push c, s'.limit⟩ := by
  obtain ⟨cells, limit⟩ := s
  by_cases hsize : 0 < cells.size
  · obtain ⟨xs, d, rfl⟩ : ∃ (xs : Array UInt64) (d : UInt64), cells = xs.push d :=
      exists_push ⟨cells, limit⟩ hsize
    rw [pop_push] at h
    cases h
    rfl
  · obtain rfl := Array.size_eq_zero_iff.mp (Nat.eq_zero_of_not_pos hsize)
    contradiction

/-- A stack that is not empty gives a cell. -/
theorem exists_pop (s : Stack) (h : 0 < s.size) :
    ∃ c s', pop s = .ok c s' ∧ s'.size + 1 = s.size := by
  obtain ⟨xs, c, hcells⟩ := s.exists_push h
  obtain ⟨cells, limit⟩ := s
  obtain rfl := hcells
  exact ⟨c, _, pop_push xs c limit, by simp [size]⟩

/-- Cells are taken together, and keep their order. -/
theorem popMany_append (xs ys : Array UInt64) (limit : Nat) :
    popMany ys.size ⟨xs ++ ys, limit⟩ = .ok ys ⟨xs, limit⟩ := by
  simp [popMany]

/-- Cells that were taken together have been on top, in their order. -/
theorem popMany_eq_ok (h : popMany n s = .ok ys s') :
    ys.size = n ∧ s = ⟨s'.cells ++ ys, s'.limit⟩ := by
  obtain ⟨cells, limit⟩ := s
  by_cases hsize : cells.size < n
  · simp only [popMany, if_pos hsize] at h
    contradiction
  · obtain ⟨xs, zs, rfl, rfl⟩ : ∃ xs zs, cells = xs ++ zs ∧ zs.size = n :=
      exists_append ⟨cells, limit⟩ (Nat.le_of_not_lt hsize)
    rw [popMany_append] at h
    cases h
    exact ⟨rfl, rfl⟩

/-- If there are too few cells, none is taken. -/
theorem popMany_eq_error (h : popMany n s = .error t s') :
    s.size < n ∧ t = .stackUnderflow ∧ s' = s := by
  unfold popMany at h
  split at h
  · next hsize =>
    cases h
    exact ⟨hsize, rfl, rfl⟩
  · contradiction

/-! ## Dropping cells in the middle -/

/-- Of three parts, the lowest and the topmost are kept. -/
theorem unwind_append (xs ys zs : Array UInt64) (limit : Nat) :
    unwind xs.size zs.size ⟨xs ++ ys ++ zs, limit⟩ = .ok () ⟨xs ++ zs, limit⟩ := by
  have hsize : ¬ (xs ++ ys ++ zs).size < xs.size + zs.size := by
    simp only [Array.size_append]
    omega
  have htop : (xs ++ ys ++ zs).extract ((xs ++ ys ++ zs).size - zs.size) = zs := by
    generalize xs ++ ys = us
    simp
  have hbottom : (xs ++ ys ++ zs).shrink xs.size = xs := by
    simp [Array.shrink_eq_take, Array.append_assoc]
  simp only [unwind, if_neg hsize, htop, hbottom]

/-- A stack that could be unwound falls into three parts, of which the middle one is gone. -/
theorem unwind_eq_ok (h : unwind height arity s = .ok a s') :
    ∃ xs ys zs : Array UInt64, s = ⟨xs ++ ys ++ zs, s'.limit⟩ ∧ xs.size = height ∧
      zs.size = arity ∧ s'.cells = xs ++ zs := by
  obtain ⟨cells, limit⟩ := s
  by_cases hsize : cells.size < height + arity
  · simp only [unwind, if_pos hsize] at h
    contradiction
  · obtain ⟨us, zs, rfl, rfl⟩ : ∃ us zs, cells = us ++ zs ∧ zs.size = arity :=
      exists_append ⟨cells, limit⟩ (by simp only [size]; omega)
    obtain ⟨xs, ys, rfl, hys⟩ : ∃ xs ys, us = xs ++ ys ∧ ys.size = us.size - height :=
      exists_append ⟨us, limit⟩ (Nat.sub_le _ _)
    obtain rfl : xs.size = height := by
      simp only [Array.size_append] at hys hsize
      omega
    rw [unwind_append] at h
    cases h
    exact ⟨xs, ys, zs, rfl, rfl, rfl, rfl⟩

/-- If there are too few cells for what is to be kept, all of them stay. -/
theorem unwind_eq_error (h : unwind height arity s = .error t s') :
    s.size < height + arity ∧ t = .stackUnderflow ∧ s' = s := by
  unfold unwind at h
  split at h
  · next hsize =>
    cases h
    exact ⟨hsize, rfl, rfl⟩
  · contradiction

end Wasm.Stack
