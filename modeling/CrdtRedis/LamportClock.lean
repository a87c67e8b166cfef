import Mathlib.Data.Prod.Lex
import Mathlib.Tactic

/-!
# Lamport clocks (`lamport_clock.h`)

A clock has a counter and the id of a replica. `lcCmp` orders by the counter first, `lcCmpAsTag` by
the id first; both return the difference of the first fields that differ. `Lc.key` and `Lc.tagKey`
are the two orders as lexicographic ones.
-/

namespace CrdtRedis

/-- `lc`. -/
@[ext] structure Lc where
  x : ℤ
  id : ℤ
  deriving DecidableEq

/-- `lc_cmp_as_tag`. -/
def lcCmpAsTag (t₁ t₂ : Lc) : ℤ := if t₁.id ≠ t₂.id then t₁.id - t₂.id else t₁.x - t₂.x

/-- `lc_cmp`. -/
def lcCmp (t₁ t₂ : Lc) : ℤ := if t₁.x ≠ t₂.x then t₁.x - t₂.x else t₁.id - t₂.id

/-- `lc_update`: the larger counter, the id stays. -/
def lcUpdate (tar m : Lc) : Lc := { tar with x := if m.x < tar.x then tar.x else m.x }

/-- `lc_now`: the next clock. -/
def lcNow (t : Lc) : Lc := { t with x := t.x + 1 }

/-- The order of `lc_cmp`. -/
def Lc.key (t : Lc) : ℤ ×ₗ ℤ := toLex (t.x, t.id)

/-- The order of `lc_cmp_as_tag`. -/
def Lc.tagKey (t : Lc) : ℤ ×ₗ ℤ := toLex (t.id, t.x)

@[simp] theorem lcUpdate_x (tar m : Lc) : (lcUpdate tar m).x = max tar.x m.x := by
  simp only [lcUpdate]; split <;> omega

@[simp] theorem lcUpdate_id (tar m : Lc) : (lcUpdate tar m).id = tar.id := rfl

theorem Lc.key_inj {t₁ t₂ : Lc} : t₁.key = t₂.key ↔ t₁ = t₂ := by
  simp [Lc.key, Lc.ext_iff]

theorem lcCmp_le_zero {t₁ t₂ : Lc} : lcCmp t₁ t₂ ≤ 0 ↔ t₁.key ≤ t₂.key := by
  simp only [lcCmp, Lc.key, Prod.Lex.toLex_le_toLex]
  split <;> omega

theorem Lc.tagKey_inj {t₁ t₂ : Lc} : t₁.tagKey = t₂.tagKey ↔ t₁ = t₂ := by
  simp [Lc.tagKey, Lc.ext_iff, and_comm]

theorem lcCmpAsTag_lt_zero {t₁ t₂ : Lc} : lcCmpAsTag t₁ t₂ < 0 ↔ t₁.tagKey < t₂.tagKey := by
  simp only [lcCmpAsTag, Lc.tagKey, Prod.Lex.toLex_lt_toLex]
  split <;> omega

theorem lcCmpAsTag_le_zero {t₁ t₂ : Lc} : lcCmpAsTag t₁ t₂ ≤ 0 ↔ t₁.tagKey ≤ t₂.tagKey := by
  simp only [lcCmpAsTag, Lc.tagKey, Prod.Lex.toLex_le_toLex]
  split <;> omega

theorem lcCmpAsTag_eq_zero {t₁ t₂ : Lc} : lcCmpAsTag t₁ t₂ = 0 ↔ t₁ = t₂ := by
  simp only [lcCmpAsTag, Lc.ext_iff]
  split <;> omega

end CrdtRedis
