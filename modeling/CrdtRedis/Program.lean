import Mathlib.Data.Nat.Notation

/-!
# Programs with failures and choices

A program over states `σ` ends with a result and a new state or fails: an access outside an array,
an assertion. What a program does may depend on data that is not part of `σ`. Such a decision is
read from a list of choices, and what holds for every list of choices holds whatever the data is.

`Triple P m Q`: from a state with `P`, and for all choices, `m` does not fail, and ends with `Q`.
The rules follow the constructs: `Triple.bind`, `Triple.either`, `Triple.times`, ….
-/

namespace CrdtRedis

/-- A program over states `σ`, with its choices. -/
abbrev Prog (σ : Type) := StateT (σ × List ℕ) Option

namespace Prog

variable {σ α β : Type}

def read : Prog σ σ := fun s => some (s.1, s)

def write (f : σ → σ) : Prog σ Unit := fun s => some ((), (f s.1, s.2))

/-- The value, or a failure. -/
def orFail (o : Option α) : Prog σ α := fun s => o.map fun a => (a, s)

/-- The next choice; a list that has ended goes on with 0. -/
def choose : Prog σ ℕ := fun s => some (s.2.headD 0, (s.1, s.2.tail))

/-- One of two programs. -/
def either (p q : Prog σ α) : Prog σ α := choose >>= fun i => if i = 0 then p else q

/-- One of the values, if there is any. -/
def pickFrom (f : σ → List β) : Prog σ (Option β) :=
  read >>= fun s => choose >>= fun i => pure (f s)[i]?

/-- The program, `n` times. -/
def times : ℕ → Prog σ Unit → Prog σ Unit
  | 0, _ => pure ()
  | n + 1, p => p >>= fun _ => times n p

/-- The program, any number of times. -/
def loop (p : Prog σ Unit) : Prog σ Unit := choose >>= fun n => times n p

end Prog

/-- From a state with `P`, `m` does not fail, and ends with `Q`, for all choices. -/
def Triple {σ α : Type} (P : σ → Prop) (m : Prog σ α) (Q : α → σ → Prop) : Prop :=
  ∀ s ch, P s → ∃ a s' ch', m (s, ch) = some (a, (s', ch')) ∧ Q a s'

namespace Triple

open Prog

variable {σ α β : Type} {P : σ → Prop} {Q : α → σ → Prop} {m : Prog σ α}

theorem ret {a : α} (h : ∀ s, P s → Q a s) : Triple P (pure a) Q :=
  fun s ch hs => ⟨a, s, ch, rfl, h s hs⟩

theorem bind {R : β → σ → Prop} {f : α → Prog σ β} (hm : Triple P m Q)
    (hf : ∀ a, Triple (Q a) (f a) R) : Triple P (m >>= f) R := by
  intro s ch hs
  obtain ⟨a, s', ch', he, hqa⟩ := hm s ch hs
  obtain ⟨b, s'', ch'', he', hr⟩ := hf a s' ch' hqa
  refine ⟨b, s'', ch'', ?_, hr⟩
  change (m (s, ch)).bind (fun p => f p.1 p.2) = _
  rw [he]
  exact he'

/-- What is read is the state that the program goes on with. -/
theorem read {R : β → σ → Prop} {f : σ → Prog σ β}
    (hf : ∀ s, P s → Triple (· = s) (f s) R) : Triple P (Prog.read >>= f) R :=
  fun s ch hs => hf s hs s ch rfl

theorem write {f : σ → σ} {Q : Unit → σ → Prop} (h : ∀ s, P s → Q () (f s)) :
    Triple P (Prog.write f) Q :=
  fun s ch hs => ⟨(), f s, ch, rfl, h s hs⟩

theorem orFail {o : Option α} (h : ∀ s, P s → ∃ a, o = some a ∧ Q a s) :
    Triple P (Prog.orFail o) Q := by
  intro s ch hs
  obtain ⟨a, he, hq⟩ := h s hs
  exact ⟨a, s, ch, by rw [he]; rfl, hq⟩

theorem choose {R : β → σ → Prop} {f : ℕ → Prog σ β} (hf : ∀ i, Triple P (f i) R) :
    Triple P (Prog.choose >>= f) R :=
  fun s ch hs => hf _ s ch.tail hs

theorem either {p q : Prog σ α} (hp : Triple P p Q) (hq : Triple P q Q) :
    Triple P (Prog.either p q) Q := by
  refine choose fun i => ?_
  split
  · exact hp
  · exact hq

theorem pickFrom {f : σ → List β} {Q : Option β → σ → Prop}
    (h : ∀ s, P s → Q none s ∧ ∀ b ∈ f s, Q (some b) s) : Triple P (Prog.pickFrom f) Q := by
  refine read fun s hs => choose fun i => ret ?_
  intro s' hs'
  rw [hs']
  cases hb : (f s)[i]? with
  | none => exact (h s hs).1
  | some b => exact (h s hs).2 b (List.mem_of_getElem? hb)

theorem times {p : Prog σ Unit} (hp : Triple P p fun _ => P) (n : ℕ) :
    Triple P (Prog.times n p) fun _ => P := by
  induction n with
  | zero => exact ret fun _ hs => hs
  | succ n ih => exact hp.bind fun _ => ih

theorem loop {p : Prog σ Unit} (hp : Triple P p fun _ => P) :
    Triple P (Prog.loop p) fun _ => P :=
  choose fun n => times hp n

end Triple

end CrdtRedis
