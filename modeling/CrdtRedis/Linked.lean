import Mathlib.Data.List.Basic
import Mathlib.Tactic

/-!
# Singly linked lists

A heap of cells is a function `next : P → Option P` from pointers to the pointer of the following
cell. `Chain next h l` says that the cells reached from the link `h` are `l`, in this order.

* `Chain.nodup`, `Chain.unique`: a link reaches one list, and never a cell twice.
* `Chain.cons_new`, `Chain.splice`: a new cell in front, and after a cell.
* `walk`: the search loop of a sorted insert. It stops before the first cell that it does not pass
  (`walk_eq`).
* `cells`: the cells that a traversal visits (`cells_eq`).

The loops take a bound on their rounds and have no result when it runs out.
-/

namespace Linked

variable {P : Type}

/-- The cells reached from the link `h`. -/
def Chain (next : P → Option P) : Option P → List P → Prop
  | h, [] => h = none
  | h, p :: l => h = some p ∧ Chain next (next p) l

variable {next : P → Option P} {h : Option P} {l l₁ l₂ : List P} {p e : P}

theorem Chain.head_eq (hc : Chain next h l) : h = l.head? := by
  cases l with
  | nil => exact hc
  | cons p l => exact hc.1

theorem Chain.unique (hc : Chain next h l₁) (hc' : Chain next h l₂) : l₁ = l₂ := by
  induction l₁ generalizing h l₂ with
  | nil =>
    cases l₂ with
    | nil => rfl
    | cons q l₂ => exact absurd (hc.symm.trans hc'.1) (by simp)
  | cons p l₁ ih =>
    cases l₂ with
    | nil => exact absurd (hc.1.symm.trans hc') (by simp)
    | cons q l₂ =>
      obtain rfl : p = q := Option.some.inj (hc.1.symm.trans hc'.1)
      rw [ih hc.2 hc'.2]

/-- The rest of the list after a cell. -/
theorem Chain.drop (hc : Chain next h (l₁ ++ p :: l₂)) : Chain next (next p) l₂ := by
  induction l₁ generalizing h with
  | nil => exact hc.2
  | cons q l₁ ih => exact ih hc.2

theorem Chain.nodup (hc : Chain next h l) : l.Nodup := by
  induction l generalizing h with
  | nil => exact List.nodup_nil
  | cons p l ih =>
    refine List.nodup_cons.mpr ⟨fun hp => ?_, ih hc.2⟩
    -- A second visit would reach the same rest, which is shorter.
    obtain ⟨l₁, l₂, rfl⟩ := List.append_of_mem hp
    have := congrArg List.length (hc.2.unique hc.2.drop)
    simp only [List.length_append, List.length_cons] at this
    omega

/-- Only the links of the cells in the list matter. -/
theorem Chain.congr {next' : P → Option P} (hc : Chain next h l)
    (hn : ∀ p ∈ l, next' p = next p) : Chain next' h l := by
  induction l generalizing h with
  | nil => exact hc
  | cons p l ih =>
    exact ⟨hc.1, by rw [hn p (by simp)]; exact ih hc.2 fun q hq => hn q (by simp [hq])⟩

section Insert

variable [DecidableEq P]

theorem Chain.cons_new (hc : Chain next h l) (he : e ∉ l) :
    Chain (Function.update next e h) (some e) (e :: l) := by
  refine ⟨rfl, ?_⟩
  rw [Function.update_self]
  exact hc.congr fun p hp => Function.update_of_ne (by rintro rfl; exact he hp) _ _

/-- `e` right after every `p` of the list. -/
def insertAfter (p e : P) (l : List P) : List P := l.flatMap fun x => if x = p then [x, e] else [x]

theorem insertAfter_of_notMem (hp : p ∉ l) : insertAfter p e l = l := by
  have : ∀ x ∈ l, (if x = p then [x, e] else [x]) = [x] := fun x hx =>
    if_neg (by rintro rfl; exact hp hx)
  rw [insertAfter, List.flatMap_congr this, List.flatMap_singleton']

theorem insertAfter_append (hp₁ : p ∉ l₁) (hp₂ : p ∉ l₂) :
    insertAfter p e (l₁ ++ p :: l₂) = l₁ ++ p :: e :: l₂ := by
  have h₁ := insertAfter_of_notMem (e := e) hp₁
  have h₂ := insertAfter_of_notMem (e := e) hp₂
  simp only [insertAfter] at h₁ h₂ ⊢
  rw [List.flatMap_append, List.flatMap_cons, h₁, h₂, if_pos rfl]
  rfl

theorem mem_insertAfter {q : P} : q ∈ insertAfter p e l ↔ q ∈ l ∨ (q = e ∧ p ∈ l) := by
  induction l with
  | nil => simp [insertAfter]
  | cons x l ih =>
    simp only [insertAfter, List.flatMap_cons, List.mem_append, List.mem_cons] at ih ⊢
    rw [ih]
    by_cases hx : x = p
    · subst hx; simp; tauto
    · simp [hx, Ne.symm hx]; tauto

/-- The new cell `e` after `p`: every list that reaches `p` now has `e` there. -/
theorem Chain.splice (hc : Chain next h l) (he : e ∉ l) (hep : e ≠ p) :
    Chain (Function.update (Function.update next p (some e)) e (next p)) h
      (insertAfter p e l) := by
  induction l generalizing h with
  | nil => exact hc
  | cons q l ih =>
    simp only [List.mem_cons, not_or] at he
    have ih' := ih hc.2 he.2
    by_cases hq : q = p
    · subst hq
      have hrest : insertAfter q e (q :: l) = q :: e :: insertAfter q e l := by simp [insertAfter]
      rw [hrest]
      refine ⟨hc.1, ?_, ?_⟩
      · rw [Function.update_of_ne hep.symm, Function.update_self]
      · rw [Function.update_self]; exact ih'
    · have hrest : insertAfter p e (q :: l) = q :: insertAfter p e l := by simp [insertAfter, hq]
      rw [hrest]
      refine ⟨hc.1, ?_⟩
      rw [Function.update_of_ne (Ne.symm he.1), Function.update_of_ne hq]
      exact ih'

end Insert

/-! ## Loops -/

/-- Go on from cell `p` as long as `pass` holds of the following cell; the last cell and the link
that is then in it. `pass` may fail. -/
def walk (next : P → Option P) (pass : P → Option Bool) : ℕ → P → Option (P × Option P)
  | 0, _ => none
  | f + 1, p =>
    match next p with
    | none => some (p, none)
    | some q =>
      match pass q with
      | none => none
      | some true => walk next pass f q
      | some false => some (p, some q)

/-- The search stays among the cells that the links lead to. -/
theorem walk_mem {A : P → Prop} {pass : P → Option Bool} {f : ℕ} {w : P × Option P}
    (hA : ∀ p q, next p = some q → A q) (hp : A p) (hw : walk next pass f p = some w) :
    A w.1 ∧ ∀ q ∈ w.2, A q := by
  induction f generalizing p with
  | zero => cases hw
  | succ f ih =>
    unfold walk at hw
    split at hw
    · cases hw
      exact ⟨hp, by simp⟩
    · rename_i q hq
      have hAq := hA p q hq
      split at hw
      · cases hw
      · exact ih hAq hw
      · cases hw
        exact ⟨hp, by simpa using hAq⟩

/-- The search splits the rest of the list in what it passes and what it does not reach. -/
theorem walk_eq {pass : P → Option Bool} {g : P → Bool} {f : ℕ} (hc : Chain next (next p) l)
    (hg : ∀ q ∈ l, pass q = some (g q)) (hf : l.length < f) :
    ∃ l₁ q l₂, p :: l = l₁ ++ q :: l₂ ∧ walk next pass f p = some (q, l₂.head?) ∧
      (∀ x ∈ (l₁ ++ [q]).tail, g x = true) ∧ ∀ x ∈ l₂.head?, g x = false := by
  induction l generalizing p f with
  | nil =>
    obtain ⟨f, rfl⟩ := Nat.exists_eq_succ_of_ne_zero (show f ≠ 0 by omega)
    have hn : next p = none := hc
    exact ⟨[], p, [], rfl, by simp [walk, hn], by simp, by simp⟩
  | cons q l ih =>
    obtain ⟨f, rfl⟩ := Nat.exists_eq_succ_of_ne_zero (show f ≠ 0 by omega)
    have hq := hg q (by simp)
    cases hgq : g q with
    | false =>
      refine ⟨[], p, q :: l, rfl, ?_, by simp, by simp [hgq]⟩
      simp [walk, hc.1, hq, hgq]
    | true =>
      obtain ⟨l₁, q', l₂, hl, hw, hpass, hstop⟩ :=
        ih (f := f) hc.2 (fun x hx => hg x (by simp [hx])) (by simpa using hf)
      refine ⟨p :: l₁, q', l₂, by simp [hl], by simp [walk, hc.1, hq, hgq, hw], ?_, hstop⟩
      intro x hx
      simp only [List.cons_append, List.tail_cons] at hx
      cases l₁ with
      | nil =>
        obtain rfl : q = q' := by simpa using congrArg List.head? hl
        obtain rfl : x = q := by simpa using hx
        exact hgq
      | cons y l₁ =>
        obtain rfl : q = y := by simpa using congrArg List.head? hl
        rcases List.mem_cons.mp hx with rfl | hx
        · exact hgq
        · exact hpass x (by simpa using hx)

/-- The cells from the link `h`. -/
def cells (next : P → Option P) : ℕ → Option P → Option (List P)
  | _, none => some []
  | 0, some _ => none
  | f + 1, some p => (cells next f (next p)).map (p :: ·)

theorem cells_eq {f : ℕ} (hc : Chain next h l) (hf : l.length ≤ f) : cells next f h = some l := by
  induction l generalizing h f with
  | nil =>
    obtain rfl : h = none := hc
    cases f <;> rfl
  | cons p l ih =>
    obtain ⟨rfl, hc⟩ := hc
    obtain ⟨f, rfl⟩ := Nat.exists_eq_succ_of_ne_zero (show f ≠ 0 by simp at hf; omega)
    simp [cells, ih hc (by simpa using hf)]

end Linked
