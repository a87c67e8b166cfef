import CrdtRedis.Client

/-!
# The memory of `rargv` (`CRDT.h`)

`rargv` is an array of cells. `INIT_RARGV` allocates `__capacity__` cells and copies `argv`;
`_RARGV_ADD` writes the next cell, after it has enlarged an array that is full. A write fails where
there is no cell.

`rargvMem` is what a prepare phase makes of a client without `rargv`: no write fails, the cells hold
`argv` and what was added, and no more than twice the cells that were added are allocated, or the
four of the start (`rargvMem_spec`). The arguments are those of `rargvAddAll` (`rargvMem_client`).
-/

namespace CrdtRedis

/-- `rargv` and `rargc`: the cells that are allocated, `none` if they were not written yet. -/
structure RargvMem (A : Type) where
  cells : List (Option A)
  rargc : ℕ

variable {A : Type}

/-- `c->rargv[i] = obj`. -/
def storeCell (cells : List (Option A)) (i : ℕ) (obj : A) : Option (List (Option A)) :=
  if i < cells.length then some (cells.set i (some obj)) else none

/-- The loop of `INIT_RARGV`, from index `i` on. -/
def storeAll (cells : List (Option A)) (i : ℕ) : List A → Option (List (Option A))
  | [] => some cells
  | obj :: objs => (storeCell cells i obj).bind fun cells => storeAll cells (i + 1) objs

/-- `INIT_RARGV`. -/
def initRargv (argv : List A) (capacity : ℕ) : Option (RargvMem A) :=
  (storeAll (List.replicate capacity none) 0 argv).map fun cells => ⟨cells, argv.length⟩

/-- `if (!c->rargv) INIT_RARGV`. -/
def orInitRargv (argv : List A) (capacity : ℕ) : Option (RargvMem A) → Option (RargvMem A)
  | none => initRargv argv capacity
  | some r => some r

/-- `zrealloc`. -/
def reallocCells (cells : List (Option A)) (size : ℕ) : List (Option A) :=
  cells.take size ++ List.replicate (size - cells.length) none

/-- `_RARGV_ADD`, with `__capacity__`. -/
def rargvMemAdd (argv : List A) (p : ℕ × Option (RargvMem A)) (obj : A) :
    Option (ℕ × Option (RargvMem A)) :=
  (orInitRargv argv p.1 p.2).bind fun r =>
    let capacity := if r.rargc = p.1 then 2 * p.1 - argv.length else p.1
    let cells := if r.rargc = p.1 then reallocCells r.cells capacity else r.cells
    (storeCell cells r.rargc obj).map fun cells => (capacity, some ⟨cells, r.rargc + 1⟩)

/-- A prepare phase that adds `added`, from `CRDT_PREPARE` to `CRDT_EFFECT`. -/
def rargvMem (argv added : List A) : Option (RargvMem A) :=
  (added.foldlM (rargvMemAdd argv) (argv.length + additionalCapacity, none)).bind fun p =>
    orInitRargv argv p.1 p.2

/-- `c->rargv[i]`. -/
def RargvMem.get (r : RargvMem A) (i : ℕ) : Option A := r.cells[i]?.join

/-- The arguments are `l`, and the other cells are free. -/
structure RargvMem.Holds (r : RargvMem A) (l : List A) : Prop where
  rargc : r.rargc = l.length
  cells : ∃ free, r.cells = l.map some ++ List.replicate free none

theorem RargvMem.Holds.get {r : RargvMem A} {l : List A} (h : r.Holds l) (i : ℕ) :
    r.get i = l[i]? := by
  obtain ⟨free, hcells⟩ := h.cells
  unfold RargvMem.get
  rw [hcells]
  by_cases hi : i < l.length
  · rw [List.getElem?_append_left (by simpa using hi), List.getElem?_map,
      List.getElem?_eq_getElem hi]
    rfl
  · rw [List.getElem?_append_right (by simpa using hi), List.getElem?_replicate,
      List.getElem?_eq_none (by omega)]
    split <;> rfl

theorem storeCell_free (l : List A) (free : ℕ) (obj : A) :
    storeCell (l.map some ++ List.replicate (free + 1) none) l.length obj =
      some ((l ++ [obj]).map some ++ List.replicate free none) := by
  unfold storeCell
  rw [if_pos (by simp), List.set_append_right _ _ (by simp), List.length_map, Nat.sub_self]
  simp [List.replicate_succ]

theorem storeAll_free (l objs : List A) (free : ℕ) :
    storeAll (l.map some ++ List.replicate (objs.length + free) none) l.length objs =
      some ((l ++ objs).map some ++ List.replicate free none) := by
  induction objs generalizing l with
  | nil => simp [storeAll]
  | cons obj objs ih =>
    unfold storeAll
    rw [show (obj :: objs).length + free = objs.length + free + 1 by rw [List.length_cons]; omega,
      storeCell_free, Option.bind_some]
    have h := ih (l ++ [obj])
    rwa [List.length_append, List.length_singleton, List.append_assoc, List.singleton_append] at h

theorem initRargv_spec {argv : List A} {capacity : ℕ} (h : argv.length ≤ capacity) :
    ∃ r, initRargv argv capacity = some r ∧ r.Holds argv ∧ r.cells.length = capacity := by
  have hstore := storeAll_free [] argv (capacity - argv.length)
  rw [Nat.add_sub_cancel' h] at hstore
  refine ⟨⟨argv.map some ++ List.replicate (capacity - argv.length) none, argv.length⟩, ?_,
    ⟨rfl, _, rfl⟩, by simp; omega⟩
  unfold initRargv
  rw [show List.replicate capacity none =
    ([] : List A).map some ++ List.replicate capacity none from rfl]
  rw [show storeAll _ 0 argv = _ from hstore]
  rfl

/-- The state of a prepare phase whose arguments are `l` so far. -/
structure RargvOk (argv l : List A) (p : ℕ × Option (RargvMem A)) : Prop where
  lt : argv.length < p.1
  le : p.1 ≤ argv.length + max additionalCapacity (2 * (l.length - argv.length))
  unset : p.2 = none → l = argv
  holds : ∀ r ∈ p.2, r.Holds l ∧ r.cells.length = p.1

/-- After `if (!c->rargv) INIT_RARGV` there is an array. -/
theorem RargvOk.init {argv l : List A} {p : ℕ × Option (RargvMem A)} (h : RargvOk argv l p) :
    ∃ r, orInitRargv argv p.1 p.2 = some r ∧ r.Holds l ∧ r.cells.length = p.1 := by
  cases hp : p.2 with
  | none =>
    rw [h.unset hp]
    exact initRargv_spec h.lt.le
  | some r => exact ⟨r, rfl, h.holds r hp⟩

theorem RargvOk.add {argv l : List A} {p : ℕ × Option (RargvMem A)} (h : RargvOk argv l p)
    (obj : A) : ∃ p', rargvMemAdd argv p obj = some p' ∧ RargvOk argv (l ++ [obj]) p' := by
  obtain ⟨r, hr, hholds, hlen⟩ := h.init
  obtain ⟨free, hcells⟩ := hholds.cells
  have hargc := hholds.rargc
  have hlt := h.lt
  have hle := h.le
  have hsize : l.length + free = p.1 := by
    rw [← hlen, hcells]
    simp
  unfold rargvMemAdd
  rw [hr, Option.bind_some]
  by_cases hfull : r.rargc = p.1
  · -- the array is full: it gets as many cells again as were added
    obtain ⟨new, hnew⟩ : ∃ new, 2 * p.1 - argv.length = p.1 + (new + 1) :=
      ⟨2 * p.1 - argv.length - p.1 - 1, by omega⟩
    have hrealloc : reallocCells r.cells (2 * p.1 - argv.length) =
        l.map some ++ List.replicate (new + 1) none := by
      unfold reallocCells
      rw [List.take_of_length_le (by omega), hlen, hnew, Nat.add_sub_cancel_left, hcells,
        show free = 0 by omega, List.replicate_zero, List.append_nil]
    simp only [if_pos hfull]
    rw [hrealloc, hargc, storeCell_free, Option.map_some]
    refine ⟨_, rfl, ⟨by simp only; omega, ?_, by simp, ?_⟩⟩
    · simp only [List.length_append, List.length_singleton]
      omega
    · intro r' hr'
      obtain rfl := Option.some.inj hr'
      exact ⟨⟨by simp, _, rfl⟩, by simp; omega⟩
  · obtain ⟨left, rfl⟩ : ∃ left, free = left + 1 := ⟨free - 1, by omega⟩
    simp only [if_neg hfull]
    rw [hcells, hargc, storeCell_free, Option.map_some]
    refine ⟨_, rfl, ⟨hlt, ?_, by simp, ?_⟩⟩
    · simp only [List.length_append, List.length_singleton]
      omega
    · intro r' hr'
      obtain rfl := Option.some.inj hr'
      exact ⟨⟨by simp, _, rfl⟩, by simp; omega⟩

theorem RargvOk.addAll {argv l : List A} {p : ℕ × Option (RargvMem A)} (h : RargvOk argv l p)
    (added : List A) :
    ∃ p', added.foldlM (rargvMemAdd argv) p = some p' ∧ RargvOk argv (l ++ added) p' := by
  induction added generalizing l p with
  | nil => exact ⟨p, rfl, by rwa [List.append_nil]⟩
  | cons obj added ih =>
    obtain ⟨p₁, hadd, h₁⟩ := h.add obj
    obtain ⟨p₂, hrest, h₂⟩ := ih h₁
    refine ⟨p₂, ?_, by rwa [List.append_assoc, List.singleton_append] at h₂⟩
    rw [List.foldlM_cons, hadd]
    exact hrest

/-- No write of a prepare phase leaves the array. -/
theorem rargvMem_spec (argv added : List A) :
    ∃ r, rargvMem argv added = some r ∧ r.Holds (argv ++ added) ∧
      r.cells.length ≤ argv.length + max additionalCapacity (2 * added.length) := by
  have hstart : RargvOk argv argv (argv.length + additionalCapacity, none) :=
    ⟨by simp [additionalCapacity], by simp, fun _ => rfl, by simp⟩
  obtain ⟨p, hp, hok⟩ := hstart.addAll added
  obtain ⟨r, hr, hholds, hlen⟩ := hok.init
  refine ⟨r, ?_, hholds, ?_⟩
  · unfold rargvMem
    rw [hp]
    exact hr
  · have := hok.le
    rw [List.length_append, Nat.add_sub_cancel_left] at this
    omega

/-- The arguments are those of the client. -/
theorem rargvMem_client (argv added : List A) :
    ∃ r, rargvMem argv added = some r ∧ r.Holds (rargvAddAll argv none added).args := by
  obtain ⟨r, hr, hholds, -⟩ := rargvMem_spec argv added
  refine ⟨r, hr, ?_⟩
  rw [rargvAddAll_args]
  exact hholds

end CrdtRedis
