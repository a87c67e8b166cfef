import Mathlib.Data.List.Basic
import Mathlib.Data.List.Nodup
import Mathlib.Tactic

/-!
# Lanes of a skip list

The nodes of a skip list stand in one order, and each has a height. Lane `i` links the nodes of
height above `i`: a link holds the next such node and how many places further it is, or no node and
the number of places that are left (`hop`).

* `Lane link i l`: the links of lane `i` are those of the nodes `l`, in this order.
* `Prev i l u r`: `u` is the last node of `l` in lane `i`, and `r` nodes stand before it.
* `Lane.replace`: what follows a node of the lane can change without touching the links before it.
  Insertion and removal of a node are cases of it (`Lane.insert_high`, `Lane.insert_low`,
  `Lane.erase`).
* `Back`: the links to the node before.

A lane is about one level only: an operation that writes the links level by level keeps the lanes
one after the other.
-/

namespace SkipLanes

/-- A node: where it is, how many lanes it is in, and what it holds. -/
structure Tower (P K : Type) where
  ptr : P
  height : ℕ
  key : K
deriving DecidableEq

/-- A link of a lane. -/
structure Jump (P : Type) where
  forward : Option P
  span : ℤ
deriving DecidableEq, Repr

variable {P K : Type} {i r : ℕ} {u x y : Tower P K} {l l₁ l₂ l₃ A B : List (Tower P K)}
  {link link' : P → Option (Jump P)}

/-- The same link, seen from `n` places before. -/
def Jump.shift (n : ℤ) (j : Jump P) : Jump P := ⟨j.forward, n + j.span⟩

/-- The link of lane `i` that leads into the nodes `l`. -/
def hop (i : ℕ) : List (Tower P K) → Jump P
  | [] => ⟨none, 0⟩
  | a :: l => if i < a.height then ⟨some a.ptr, 1⟩ else (hop i l).shift 1

@[simp] theorem hop_nil : hop i ([] : List (Tower P K)) = ⟨none, 0⟩ := rfl

theorem hop_cons_high (h : i < u.height) : hop i (u :: l) = ⟨some u.ptr, 1⟩ := if_pos h

theorem hop_cons_low (h : u.height ≤ i) : hop i (u :: l) = (hop i l).shift 1 :=
  if_neg (by omega)

@[simp] theorem Jump.shift_zero (j : Jump P) : j.shift 0 = j := by simp [Jump.shift]

@[simp] theorem Jump.shift_shift (m n : ℤ) (j : Jump P) :
    (j.shift m).shift n = j.shift (n + m) := by
  simp [Jump.shift, add_assoc]

@[simp] theorem Jump.shift_forward (n : ℤ) (j : Jump P) : (j.shift n).forward = j.forward := rfl

@[simp] theorem Jump.shift_span (n : ℤ) (j : Jump P) : (j.shift n).span = n + j.span := rfl

/-- The nodes below the lane only add to the distance. -/
theorem hop_append_low (h : ∀ a ∈ l₁, a.height ≤ i) :
    hop i (l₁ ++ l₂) = (hop i l₂).shift l₁.length := by
  induction l₁ with
  | nil => simp
  | cons a l₁ ih =>
    rw [List.cons_append, hop_cons_low (h a (by simp)), ih fun b hb => h b (by simp [hb])]
    simp [add_comm]

theorem hop_low (h : ∀ a ∈ l, a.height ≤ i) : hop i l = ⟨none, l.length⟩ := by
  have h' : hop i (l ++ []) = (hop i ([] : List (Tower P K))).shift l.length := hop_append_low h
  rw [List.append_nil] at h'
  simp [h', Jump.shift]

/-- What stands after a node of the lane does not change the links that lead up to it. -/
theorem hop_append_cons_high (h : i < u.height) (l₃ : List (Tower P K)) :
    hop i (l₁ ++ u :: l₂) = hop i (l₁ ++ u :: l₃) := by
  induction l₁ with
  | nil => rw [List.nil_append, List.nil_append, hop_cons_high h, hop_cons_high h]
  | cons a l₁ ih => rw [List.cons_append, List.cons_append, hop, hop, ih]

/-- A link leads to the first node of the lane, or past the end. -/
theorem hop_cases (i : ℕ) (l : List (Tower P K)) :
    ((∀ a ∈ l, a.height ≤ i) ∧ hop i l = ⟨none, l.length⟩) ∨
      ∃ l₁ y l₂, l = l₁ ++ y :: l₂ ∧ (∀ a ∈ l₁, a.height ≤ i) ∧ i < y.height ∧
        hop i l = ⟨some y.ptr, l₁.length + 1⟩ := by
  by_cases hl : ∀ a ∈ l, a.height ≤ i
  · exact .inl ⟨hl, hop_low hl⟩
  · right
    obtain ⟨y, l₁, l₂, rfl, hy, h₁⟩ :
        ∃ y l₁ l₂, l = l₁ ++ y :: l₂ ∧ i < y.height ∧ ∀ a ∈ l₁, a.height ≤ i := by
      induction l with
      | nil => simp at hl
      | cons a l ih =>
        by_cases ha : i < a.height
        · exact ⟨a, [], l, rfl, ha, by simp⟩
        · obtain ⟨y, l₁, l₂, rfl, hy, h₁⟩ := ih fun h => hl fun b hb => by
            rcases List.mem_cons.mp hb with rfl | hb
            · omega
            · exact h b hb
          refine ⟨y, a :: l₁, l₂, rfl, hy, fun b hb => ?_⟩
          rcases List.mem_cons.mp hb with rfl | hb
          · omega
          · exact h₁ b hb
    refine ⟨l₁, y, l₂, rfl, h₁, hy, ?_⟩
    rw [hop_append_low h₁, hop_cons_high hy]
    rfl

theorem hop_forward_eq_none : (hop i l).forward = none ↔ ∀ a ∈ l, a.height ≤ i := by
  rcases hop_cases i l with ⟨hl, h⟩ | ⟨l₁, y, l₂, rfl, -, hy, h⟩
  · simpa [h] using hl
  · simp only [h, reduceCtorEq, false_iff]
    intro hl
    have := hl y (by simp)
    omega

theorem mem_of_hop_forward {p : P} (h : (hop i l).forward = some p) : ∃ a ∈ l, a.ptr = p := by
  rcases hop_cases i l with ⟨-, h'⟩ | ⟨l₁, y, l₂, rfl, -, -, h'⟩
  · rw [h'] at h
    cases h
  · rw [h'] at h
    exact ⟨y, by simp, Option.some.inj h⟩

/-! ## Lanes -/

/-- The links of lane `i` lead through the nodes in this order. -/
def Lane (link : P → Option (Jump P)) (i : ℕ) : List (Tower P K) → Prop
  | [] => True
  | a :: l => (i < a.height → link a.ptr = some (hop i l)) ∧ Lane link i l

theorem Lane.congr (h : Lane link i l) (hl : ∀ a ∈ l, i < a.height → link' a.ptr = link a.ptr) :
    Lane link' i l := by
  induction l with
  | nil => trivial
  | cons a l ih =>
    refine ⟨fun ha => ?_, ih h.2 fun b hb => hl b (by simp [hb])⟩
    rw [hl a (by simp) ha]
    exact h.1 ha

theorem Lane.drop (h : Lane link i (l₁ ++ l₂)) : Lane link i l₂ := by
  induction l₁ with
  | nil => exact h
  | cons a l₁ ih => exact ih h.2

theorem Lane.link_eq (h : Lane link i (l₁ ++ u :: l₂)) (hu : i < u.height) :
    link u.ptr = some (hop i l₂) :=
  h.drop.1 hu

theorem lane_append_low (h : ∀ a ∈ l₁, a.height ≤ i) :
    Lane link i (l₁ ++ l₂) ↔ Lane link i l₂ := by
  induction l₁ with
  | nil => simp
  | cons a l₁ ih =>
    have ha : ¬ i < a.height := by have := h a (by simp); omega
    simp only [List.cons_append, Lane, ha, false_imp_iff, true_and]
    exact ih fun b hb => h b (by simp [hb])

/-- Above every node a lane has no links. -/
theorem lane_low (h : ∀ a ∈ l, a.height ≤ i) : Lane link i l := by
  have h' : Lane link i (l ++ []) := (lane_append_low h).mpr trivial
  rwa [List.append_nil] at h'

/-- After a node of the lane the list may change, if its own link and those that follow are
right. -/
theorem Lane.replace (h : Lane link i (l₁ ++ u :: l₂)) (hu : i < u.height)
    (hl : ∀ a ∈ l₁, link' a.ptr = link a.ptr) (hlu : link' u.ptr = some (hop i l₃))
    (h₃ : Lane link' i l₃) : Lane link' i (l₁ ++ u :: l₃) := by
  induction l₁ with
  | nil => exact ⟨fun _ => hlu, h₃⟩
  | cons a l₁ ih =>
    refine ⟨fun ha => ?_, ih h.2 fun b hb => hl b (by simp [hb])⟩
    rw [hl a (by simp), h.1 ha]
    exact congrArg some (hop_append_cons_high hu l₃)

/-- The links do not depend on what the nodes hold. -/
theorem hop_setKey (k : K) :
    hop i (l₁ ++ { x with key := k } :: l₂) = hop i (l₁ ++ x :: l₂) := by
  induction l₁ with
  | nil => rfl
  | cons a l₁ ih => rw [List.cons_append, List.cons_append, hop, hop, ih]

theorem Lane.setKey (h : Lane link i (l₁ ++ x :: l₂)) (k : K) :
    Lane link i (l₁ ++ { x with key := k } :: l₂) := by
  induction l₁ with
  | nil => exact h
  | cons a l₁ ih => exact ⟨fun ha => (h.1 ha).trans (congrArg some (hop_setKey k).symm), ih h.2⟩

/-! ## The last node of a lane -/

/-- `u` is the last node of `l` in lane `i`, at place `r`. -/
def Prev (i : ℕ) (l : List (Tower P K)) (u : Tower P K) (r : ℕ) : Prop :=
  ∃ l₁ l₂, l = l₁ ++ u :: l₂ ∧ l₁.length = r ∧ i < u.height ∧ ∀ a ∈ l₂, a.height ≤ i

theorem Prev.mem (h : Prev i l u r) : u ∈ l := by
  obtain ⟨l₁, l₂, rfl, -, -, -⟩ := h
  simp

/-- In a lane that every node is in, it is the last one. -/
theorem Prev.last (h : Prev i l u r) (hl : ∀ a ∈ l.tail, i < a.height) :
    l.getLast? = some u ∧ r + 1 = l.length := by
  obtain ⟨l₁, l₂, rfl, rfl, hu, hlow⟩ := h
  cases l₂ with
  | nil => simp
  | cons a l₂ =>
    have hlo := hlow a (by simp)
    have hhi := hl a (by cases l₁ <;> simp)
    omega

/-- No node after the first is in the lane. -/
theorem prev_cons_low (hx : i < x.height) (h : ∀ a ∈ l, a.height ≤ i) : Prev i (x :: l) x 0 :=
  ⟨[], l, rfl, rfl, hx, h⟩

/-- The link of the last node of the lane within `A`. -/
theorem Lane.link_prev (h : Lane link i (A ++ B)) (hu : Prev i A u r) :
    link u.ptr = some ((hop i B).shift (A.length - 1 - r)) := by
  obtain ⟨l₁, l₂, rfl, rfl, hu, hlow⟩ := hu
  rw [List.append_assoc, List.cons_append] at h
  rw [h.link_eq hu, hop_append_low hlow]
  congr 2
  simp only [List.length_append, List.length_cons, Nat.cast_add, Nat.cast_one]
  ring

/-! ## A node more, a node less

`A` ends before the place of the node and `u` is the last node of the lane in it. -/

/-- The distance of two nodes is that of their places. -/
private theorem Prev.split (hu : Prev i A u r) :
    ∃ l₁ l₂, A = l₁ ++ u :: l₂ ∧ (l₂.length : ℤ) = A.length - 1 - r ∧ i < u.height ∧
      ∀ a ∈ l₂, a.height ≤ i := by
  obtain ⟨l₁, l₂, rfl, rfl, hu, hlow⟩ := hu
  refine ⟨l₁, l₂, rfl, ?_, hu, hlow⟩
  simp only [List.length_append, List.length_cons, Nat.cast_add, Nat.cast_one]
  ring

private theorem ne_of_nodup (hn : ((l₁ ++ u :: l₂).map Tower.ptr).Nodup) :
    (∀ a ∈ l₁, a.ptr ≠ u.ptr) ∧ ∀ a ∈ l₂, a.ptr ≠ u.ptr := by
  rw [List.map_append, List.map_cons, List.nodup_append] at hn
  obtain ⟨-, hu, hd⟩ := hn
  refine ⟨fun a ha => hd _ (List.mem_map_of_mem ha) _ (by simp), fun a ha he => ?_⟩
  exact (List.nodup_cons.mp hu).1 (he ▸ List.mem_map_of_mem ha)

/-- The links of the last node before and of a node put in. -/
theorem Lane.insert_high (h : Lane link i (A ++ B)) (hu : Prev i A u r)
    (hn : ((A ++ x :: B).map Tower.ptr).Nodup) (hx : i < x.height)
    (hlu : link' u.ptr = some ⟨some x.ptr, A.length - r⟩)
    (hlx : link' x.ptr = some (hop i B))
    (hl : ∀ p, p ≠ u.ptr → p ≠ x.ptr → link' p = link p) :
    Lane link' i (A ++ x :: B) := by
  obtain ⟨l₁, l₂, rfl, hlen, hu, hlow⟩ := hu.split
  have hnx := ne_of_nodup hn
  rw [List.append_assoc, List.cons_append] at h hn ⊢
  have hnu := ne_of_nodup hn
  refine h.replace hu (fun a ha => hl a.ptr (hnu.1 a ha) (hnx.1 a (by simp [ha]))) ?_ ?_
  · rw [hlu, hop_append_low hlow, hop_cons_high hx]
    simp only [Jump.shift, hlen]
    congr 2
    ring
  · rw [lane_append_low hlow]
    have hB : Lane link i B := by
      rw [← List.cons_append, ← List.append_assoc] at h
      exact h.drop
    exact ⟨fun _ => hlx, hB.congr fun a ha _ => hl a.ptr (hnu.2 a (by simp [ha])) (hnx.2 a ha)⟩

/-- A node below the lane only adds to the span of the last node before. -/
theorem Lane.insert_low (h : Lane link i (A ++ B)) (hu : Prev i A u r)
    (hn : ((A ++ x :: B).map Tower.ptr).Nodup) (hx : x.height ≤ i)
    (hlu : link' u.ptr = (link u.ptr).map (Jump.shift 1))
    (hl : ∀ p, p ≠ u.ptr → p ≠ x.ptr → link' p = link p) :
    Lane link' i (A ++ x :: B) := by
  have hlu' := h.link_prev hu
  obtain ⟨l₁, l₂, rfl, hlen, hu, hlow⟩ := hu.split
  have hnx := ne_of_nodup hn
  rw [List.append_assoc, List.cons_append] at h hn ⊢
  have hnu := ne_of_nodup hn
  refine h.replace hu (fun a ha => hl a.ptr (hnu.1 a ha) (hnx.1 a (by simp [ha]))) ?_ ?_
  · rw [hlu, hlu', hop_append_low hlow, hop_cons_low hx, ← hlen]
    simp [add_comm]
  · rw [lane_append_low hlow]
    have hB : Lane link i B := by
      rw [← List.cons_append, ← List.append_assoc] at h
      exact h.drop
    exact ⟨fun hx' => absurd hx' (by omega),
      hB.congr fun a ha _ => hl a.ptr (hnu.2 a (by simp [ha])) (hnx.2 a ha)⟩

/-- Without a node, the link of the last node before it leads where the next link led. -/
theorem Lane.erase (h : Lane link i (A ++ x :: B)) (hu : Prev i A u r)
    (hn : ((A ++ x :: B).map Tower.ptr).Nodup)
    (hlu : link' u.ptr = some ((hop i B).shift (A.length - 1 - r)))
    (hl : ∀ p, p ≠ u.ptr → link' p = link p) :
    Lane link' i (A ++ B) := by
  obtain ⟨l₁, l₂, rfl, hlen, hu, hlow⟩ := hu.split
  have hB : Lane link i B := h.drop.2
  rw [List.append_assoc, List.cons_append] at h hn ⊢
  have hnu := ne_of_nodup hn
  refine h.replace hu (fun a ha => hl a.ptr (hnu.1 a ha)) ?_ ?_
  · rw [hlu, hop_append_low hlow, hlen]
  · rw [lane_append_low hlow]
    exact hB.congr fun a ha _ => hl a.ptr (hnu.2 a (by simp [ha]))

/-! ## Links to the node before -/

/-- Each node knows the one before it; `p` stands before the first. -/
def Back (back : P → Option (Option P)) : Option P → List (Tower P K) → Prop
  | _, [] => True
  | p, a :: l => back a.ptr = some p ∧ Back back (some a.ptr) l

/-- The node that a link back from after `l` leads to. -/
def lastPtr (p : Option P) (l : List (Tower P K)) : Option P := (l.getLast?.map Tower.ptr).or p

@[simp] theorem lastPtr_nil (p : Option P) : lastPtr p ([] : List (Tower P K)) = p := rfl

@[simp] theorem lastPtr_cons (p : Option P) (a : Tower P K) :
    lastPtr p (a :: l) = lastPtr (some a.ptr) l := by
  cases l with
  | nil => rfl
  | cons b l => simp [lastPtr, List.getLast?_cons]

@[simp] theorem lastPtr_append (p : Option P) : lastPtr p (A ++ B) = lastPtr (lastPtr p A) B := by
  induction A generalizing p with
  | nil => rfl
  | cons a A ih => rw [List.cons_append, lastPtr_cons, ih, lastPtr_cons]

variable {back back' : P → Option (Option P)} {p : Option P}

theorem back_append : Back back p (A ++ B) ↔ Back back p A ∧ Back back (lastPtr p A) B := by
  induction A generalizing p with
  | nil => simp [Back]
  | cons a A ih => simp only [List.cons_append, Back, ih, lastPtr_cons, and_assoc]

theorem Back.congr (h : Back back p l) (hl : ∀ a ∈ l, back' a.ptr = back a.ptr) :
    Back back' p l := by
  induction l generalizing p with
  | nil => trivial
  | cons a l ih => exact ⟨(hl a (by simp)).trans h.1, ih h.2 fun b hb => hl b (by simp [hb])⟩

/-- A node put in, with the link back of the node after it. -/
theorem Back.insert (h : Back back p (A ++ B)) (hn : ((A ++ x :: B).map Tower.ptr).Nodup)
    (hx : back' x.ptr = some (lastPtr p A)) (hB : ∀ b ∈ B.head?, back' b.ptr = some (some x.ptr))
    (hl : ∀ p, p ≠ x.ptr → (∀ b ∈ B.head?, p ≠ b.ptr) → back' p = back p) :
    Back back' p (A ++ x :: B) := by
  obtain ⟨hA, hB'⟩ := back_append.mp h
  have hnx := ne_of_nodup hn
  refine back_append.mpr ⟨hA.congr fun a ha => hl a.ptr (hnx.1 a ha) ?_, hx, ?_⟩
  · rw [List.map_append, List.nodup_append] at hn
    intro b hb
    exact hn.2.2 _ (List.mem_map_of_mem ha) _
      (List.mem_map_of_mem (by simp [List.mem_of_mem_head? hb]))
  · cases B with
    | nil => trivial
    | cons b B =>
      refine ⟨hB b rfl, hB'.2.congr fun a ha => hl a.ptr (hnx.2 a (by simp [ha])) fun c hc => ?_⟩
      obtain rfl : b = c := by simpa using hc
      rw [List.append_cons] at hn
      exact (ne_of_nodup hn).2 a ha

/-- A node taken out: the node after it gets its link back. -/
theorem Back.erase (h : Back back p (A ++ x :: B)) (hn : ((A ++ x :: B).map Tower.ptr).Nodup)
    (hB : ∀ b ∈ B.head?, back' b.ptr = back x.ptr)
    (hl : ∀ p, (∀ b ∈ B.head?, p ≠ b.ptr) → back' p = back p) :
    Back back' p (A ++ B) := by
  obtain ⟨hA, hx, hB'⟩ := back_append.mp h
  refine back_append.mpr ⟨hA.congr fun a ha => hl a.ptr ?_, ?_⟩
  · rw [List.map_append, List.nodup_append] at hn
    intro b hb
    exact hn.2.2 _ (List.mem_map_of_mem ha) _
      (List.mem_map_of_mem (by simp [List.mem_of_mem_head? hb]))
  · cases B with
    | nil => trivial
    | cons b B =>
      refine ⟨(hB b rfl).trans hx, hB'.2.congr fun a ha => hl a.ptr fun c hc => ?_⟩
      obtain rfl : b = c := by simpa using hc
      rw [List.append_cons] at hn
      exact (ne_of_nodup hn).2 a ha

theorem Back.setKey (h : Back back p (A ++ x :: B)) (k : K) :
    Back back p (A ++ { x with key := k } :: B) := by
  obtain ⟨hA, hx, hB⟩ := back_append.mp h
  exact back_append.mpr ⟨hA, hx, hB⟩

end SkipLanes
