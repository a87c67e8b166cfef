import CrdtRedis.Leid
import CrdtRedis.Text

/-!
# Identifiers in `int` arithmetic (`list_basics.h`, `list_basics.c`)

`leidCmp` and `constructLeid` compute in exact integers, by recursion and with a bound. Here
`pos_cmp`, `leid_cmp` and `constructLeid` are followed as they are written: with indices and loops,
and with operations of `int`, which fail where the result is not an `int`.

* `leidCmpInt_eq`: without negative fields no subtraction fails, and the result is that of
  `leidCmp`.
* `leidCmpInt_order`: so `leid_cmp` is a strict total order, with prefixes first.
* `constructLeidInt_between_iff`: for every clock without negative entries and both ways to choose
  the position, `constructLeid` ends with an identifier between its neighbours, if and only if the
  sum of the clock and the number of positions are `int`s.
* `constructLeidInt_overflows`: a clock whose sum is not.
-/

namespace CrdtRedis

/-- A number from 0 to the largest `int`. -/
def IsNonnegInt (x : ℤ) : Prop := 0 ≤ x ∧ x < 2 ^ 31

/-- `a - b` of two `int`s. -/
def intSub (a b : ℤ) : Option ℤ := if IsInt (a - b) then some (a - b) else none

/-- `pos_cmp`. -/
def posCmpInt (p₁ p₂ : Position) : Option ℤ :=
  if p₁.pos ≠ p₂.pos then intSub p₁.pos p₂.pos
  else if p₁.pid ≠ p₂.pid then intSub p₁.pid p₂.pid
  else intSub p₁.count p₂.count

/-- `pos_cmp(&id1->p[i], &id2->p[i])`. -/
def posCmpAt (id₁ id₂ : Leid) (i : ℕ) : Option ℤ :=
  id₁[i]?.bind fun a => id₂[i]?.bind fun b => posCmpInt a b

/-- The loop of `leid_cmp` with `m` of its `n` rounds to come: the index it stops at. -/
def cmpLoop (id₁ id₂ : Leid) (n : ℕ) : ℕ → Option ℕ
  | 0 => some n
  | m + 1 => (posCmpAt id₁ id₂ (n - (m + 1))).bind fun c =>
    if c ≠ 0 then some (n - (m + 1)) else cmpLoop id₁ id₂ n m

/-- `leid_cmp`. -/
def leidCmpInt (id₁ id₂ : Leid) : Option ℤ :=
  let n := if id₁.length < id₂.length then id₁.length else id₂.length
  (cmpLoop id₁ id₂ n n).bind fun i =>
    if i = n then intSub id₁.length id₂.length else posCmpAt id₁ id₂ i

/-- An identifier of the program: it has a position, `num` is an `int`, no field is negative. -/
structure IntLeid where
  positions : Leid
  ne_nil : positions ≠ []
  num : positions.length < 2 ^ 31
  fields : ∀ x ∈ positions, IsNonnegInt x.pos ∧ IsNonnegInt x.pid ∧ IsNonnegInt x.count

theorem intSub_eq {a b : ℤ} (ha : IsNonnegInt a) (hb : IsNonnegInt b) :
    intSub a b = some (a - b) := by
  unfold IsNonnegInt at ha hb
  unfold intSub
  rw [if_pos (by omega)]

theorem posCmpInt_eq {p q : Position}
    (hp : IsNonnegInt p.pos ∧ IsNonnegInt p.pid ∧ IsNonnegInt p.count)
    (hq : IsNonnegInt q.pos ∧ IsNonnegInt q.pid ∧ IsNonnegInt q.count) :
    posCmpInt p q = some (posCmp p q) := by
  unfold posCmpInt posCmp
  split
  · exact intSub_eq hp.1 hq.1
  · split
    · exact intSub_eq hp.2.1 hq.2.1
    · exact intSub_eq hp.2.2 hq.2.2

theorem posCmpAt_eq (p q : IntLeid) {i : ℕ} (hp : i < p.positions.length)
    (hq : i < q.positions.length) :
    posCmpAt p.positions q.positions i = some (posCmp p.positions[i] q.positions[i]) := by
  unfold posCmpAt
  rw [List.getElem?_eq_getElem hp, List.getElem?_eq_getElem hq]
  exact posCmpInt_eq (p.fields _ (List.getElem_mem hp)) (q.fields _ (List.getElem_mem hq))

theorem leidCmp_of_nil {p q : Leid} (h : p = [] ∨ q = []) :
    leidCmp p q = (p.length : ℤ) - q.length := by
  rcases h with rfl | rfl
  · cases q <;> rfl
  · cases p <;> rfl

/-- Where the loop stops, the result is that of the positions from the current one on. -/
theorem cmpLoop_spec (p q : IntLeid) {n m : ℕ}
    (hn : n = min p.positions.length q.positions.length) (hm : m ≤ n) :
    ∃ i, cmpLoop p.positions q.positions n m = some i ∧
      (if i = n then intSub p.positions.length q.positions.length
        else posCmpAt p.positions q.positions i) =
        some (leidCmp (p.positions.drop (n - m)) (q.positions.drop (n - m))) := by
  induction m with
  | zero =>
    have hnil : p.positions.drop (n - 0) = [] ∨ q.positions.drop (n - 0) = [] := by
      rw [List.drop_eq_nil_iff, List.drop_eq_nil_iff]
      omega
    have hp := p.num
    have hq := q.num
    refine ⟨n, rfl, ?_⟩
    rw [if_pos rfl, leidCmp_of_nil hnil, List.length_drop, List.length_drop]
    rw [intSub_eq ⟨by omega, by omega⟩ ⟨by omega, by omega⟩]
    congr 1
    omega
  | succ m ih =>
    have hp : n - (m + 1) < p.positions.length := by omega
    have hq : n - (m + 1) < q.positions.length := by omega
    have hnext : n - (m + 1) + 1 = n - m := by omega
    have hat := posCmpAt_eq p q hp hq
    have hcmp : leidCmp (p.positions.drop (n - (m + 1))) (q.positions.drop (n - (m + 1))) =
        if posCmp p.positions[n - (m + 1)] q.positions[n - (m + 1)] ≠ 0 then
          posCmp p.positions[n - (m + 1)] q.positions[n - (m + 1)]
        else leidCmp (p.positions.drop (n - m)) (q.positions.drop (n - m)) := by
      rw [List.drop_eq_getElem_cons hp, List.drop_eq_getElem_cons hq, hnext]
      rfl
    unfold cmpLoop
    rw [hat, Option.bind_some, hcmp]
    split
    · refine ⟨n - (m + 1), rfl, ?_⟩
      rw [if_neg (by omega), hat]
    · exact ih (by omega)

/-- No subtraction fails. -/
theorem leidCmpInt_eq (p q : IntLeid) :
    leidCmpInt p.positions q.positions = some (leidCmp p.positions q.positions) := by
  have hn : (if p.positions.length < q.positions.length then p.positions.length
      else q.positions.length) = min p.positions.length q.positions.length := by
    split <;> omega
  obtain ⟨i, hi, hres⟩ := cmpLoop_spec p q hn le_rfl
  unfold leidCmpInt
  simp only
  rw [hi, Option.bind_some, hres, Nat.sub_self, List.drop_zero, List.drop_zero]

theorem leidCmp_trans {p q r : Leid} (hpq : leidCmp p q < 0) (hqr : leidCmp q r < 0) :
    leidCmp p r < 0 :=
  leidCmp_lt_zero.mpr ((leidCmp_lt_zero.mp hpq).trans (leidCmp_lt_zero.mp hqr))

theorem leidCmp_sign_swap (p q : Leid) : (leidCmp q p).sign = -(leidCmp p q).sign := by
  rcases lt_trichotomy p.key q.key with h | h | h
  · rw [Int.sign_eq_one_of_pos (leidCmp_pos.mpr h),
      Int.sign_eq_neg_one_of_neg (leidCmp_lt_zero.mpr h)]
    rfl
  · rw [Leid.key_injective h, leidCmp_eq_zero.mpr rfl]
    rfl
  · rw [Int.sign_eq_neg_one_of_neg (leidCmp_lt_zero.mpr h),
      Int.sign_eq_one_of_pos (leidCmp_pos.mpr h)]

theorem leidCmp_append (p : Leid) {l : Leid} (hl : l ≠ []) : leidCmp p (p ++ l) < 0 := by
  induction p with
  | nil =>
    rw [leidCmp_of_nil (.inl rfl), List.nil_append, List.length_nil]
    have := List.length_pos_iff.mpr hl
    omega
  | cons a p ih =>
    rw [List.cons_append, leidCmp, if_neg (by rw [posCmp_eq_zero.mpr rfl]; simp)]
    exact ih

/-- `leid_cmp` never overflows and is a strict total order in which a proper prefix is smaller. -/
theorem leidCmpInt_order (p q r : IntLeid) :
    ∃ pq qp qr pr, leidCmpInt p.positions q.positions = some pq ∧
      leidCmpInt q.positions p.positions = some qp ∧
      leidCmpInt q.positions r.positions = some qr ∧
      leidCmpInt p.positions r.positions = some pr ∧
      (pq = 0 ↔ p.positions = q.positions) ∧
      qp.sign = -pq.sign ∧
      (pq < 0 → qr < 0 → pr < 0) ∧
      (p.positions <+: q.positions → p.positions ≠ q.positions → pq < 0) := by
  refine ⟨_, _, _, _, leidCmpInt_eq p q, leidCmpInt_eq q p, leidCmpInt_eq q r, leidCmpInt_eq p r,
    leidCmp_eq_zero, leidCmp_sign_swap _ _, leidCmp_trans, ?_⟩
  rintro ⟨l, hl⟩ hne
  rw [← hl]
  refine leidCmp_append _ ?_
  rintro rfl
  exact hne (by rw [← hl, List.append_nil])

/-- An identifier with one position, whose fields are the largest `int`s, and one that it is a
prefix of. -/
theorem leidCmpInt_order_largest :
    ∃ pq, leidCmpInt [⟨2147483647, 2147483647, 2147483647⟩]
        [⟨2147483647, 2147483647, 2147483647⟩, ⟨0, 0, 0⟩] = some pq ∧ pq < 0 := by
  let p : IntLeid := ⟨[⟨2147483647, 2147483647, 2147483647⟩], by simp, by simp,
    by simp [IsNonnegInt]⟩
  let q : IntLeid := ⟨[⟨2147483647, 2147483647, 2147483647⟩, ⟨0, 0, 0⟩], by simp, by simp,
    by simp [IsNonnegInt]⟩
  obtain ⟨pq, -, -, -, hpq, -, -, -, -, -, -, hlt⟩ := leidCmpInt_order p q q
  exact ⟨pq, hpq, hlt ⟨[⟨0, 0, 0⟩], rfl⟩ (by simp [p, q])⟩

/-! ## `constructLeid` -/

/-- `a + b` of two `int`s. -/
def intAdd (a b : ℤ) : Option ℤ := if IsInt (a + b) then some (a + b) else none

/-- The loop that adds the entries of the clock to `count`. -/
def sumLoop (count : ℤ) : List ℤ → Option ℤ
  | [] => some count
  | x :: l => (intAdd count x).bind fun count => sumLoop count l

/-- What the loop of the search tests at level `index`. -/
def levelRoom (p q : Option Leid) (index : ℕ) : Option ℤ :=
  let left := lprefix p index
  let right := rprefix q index
  intSub right left

/-- The loop of the search, from level `index`; it fails if `f` tests do not end it. -/
def searchLoop (p q : Option Leid) : ℕ → ℕ → Option ℕ
  | 0, _ => none
  | f + 1, index =>
    (levelRoom p q index).bind fun room =>
      if room < 2 then (intAdd index 1).bind fun _ => searchLoop p q f (index + 1) else some index

/-- How the new position is chosen: with a random number, or right above the left one
(`CRDT_ELE_STATUS`). -/
inductive PosStep where
  | random (rand : ℕ)
  | fixed

/-- The new position. -/
def PosStep.pos (left right : ℤ) : PosStep → Option ℤ
  | .random rand =>
    (intSub right left).bind fun d => (intSub d 2).bind fun step =>
      (intAdd left (newStep step rand)).bind fun x => intAdd x 1
  | .fixed => intAdd left 1

/-- `constructLeid`, with any clock. -/
def constructLeidInt (f : ℕ) (p q : Option Leid) (t : RawVc) (step : PosStep) : Option Leid :=
  (sumLoop 0 t.vector).bind fun count =>
    (searchLoop p q f 0).bind fun index =>
      -- `rtn->num`
      (intAdd index 1).bind fun _ =>
        let left := lprefix p index
        let right := rprefix q index
        (step.pos left right).map fun pos =>
          (List.range index).map (fun i => (p.bind (·[i]?)).getD ⟨0, 0, 0⟩) ++
            [⟨pos, t.id, count⟩]

/-- A neighbour: besides `Leid.Wf`, its positions are below `BASE`. -/
structure Leid.InBase (p : Leid) : Prop extends Leid.Wf p where
  lt_base : ∀ x ∈ p, x.pos < BASE

theorem intAdd_eq_some {a b c : ℤ} : intAdd a b = some c ↔ IsInt (a + b) ∧ c = a + b := by
  rw [intAdd, Option.ite_none_right_eq_some, Option.some.injEq, eq_comm (a := c)]

theorem isNonnegInt_zero : IsNonnegInt 0 := ⟨le_rfl, by norm_num⟩

/-- The sum of entries that are not negative is found exactly if it is an `int`. -/
theorem sumLoop_eq_some {l : List ℤ} {count c : ℤ} (hl : ∀ x ∈ l, 0 ≤ x)
    (hcount : IsNonnegInt count) :
    sumLoop count l = some c ↔ count + l.sum < 2 ^ 31 ∧ c = count + l.sum := by
  induction l generalizing count with
  | nil =>
    have hlt := hcount.2
    rw [sumLoop, List.sum_nil, add_zero, Option.some.injEq]
    exact ⟨fun h => ⟨hlt, h.symm⟩, fun h => h.2.symm⟩
  | cons x l ih =>
    have hx := hl x List.mem_cons_self
    have hrest : ∀ y ∈ l, 0 ≤ y := fun y hy => hl y (List.mem_cons_of_mem x hy)
    have hsum := List.sum_nonneg hrest
    have hge := hcount.1
    simp only [sumLoop, Option.bind_eq_some_iff, intAdd_eq_some, List.sum_cons]
    constructor
    · rintro ⟨_, ⟨hint, rfl⟩, h⟩
      rw [ih hrest ⟨by omega, hint.2⟩] at h
      omega
    · rintro ⟨hlt, rfl⟩
      have hint : IsInt (count + x) := by omega
      refine ⟨count + x, ⟨hint, rfl⟩, ?_⟩
      rw [ih hrest ⟨by omega, hint.2⟩]
      omega

section

variable {p q : Option Leid}

theorem rprefix_le_base (hq : ∀ y ∈ q, Leid.InBase y) (k : ℕ) : rprefix q k ≤ BASE := by
  unfold rprefix
  cases hx : (q.bind (·[k]?)) with
  | none => simp
  | some x =>
    obtain ⟨y, rfl, hy⟩ := Option.bind_eq_some_iff.mp hx
    simpa using ((hq y rfl).lt_base x (List.mem_of_getElem? hy)).le

theorem rprefix_nonneg (hq : ∀ y ∈ q, Leid.InBase y) (k : ℕ) : 0 ≤ rprefix q k := by
  unfold rprefix
  cases hx : (q.bind (·[k]?)) with
  | none => simp [BASE]
  | some x =>
    obtain ⟨y, rfl, hy⟩ := Option.bind_eq_some_iff.mp hx
    simpa using ((hq y rfl).nonneg x (List.mem_of_getElem? hy)).1

theorem lprefix_lt_base (hp : ∀ y ∈ p, Leid.InBase y) (k : ℕ) : lprefix p k < BASE := by
  unfold lprefix
  cases hx : (p.bind (·[k]?)) with
  | none => simp [BASE]
  | some x =>
    obtain ⟨y, rfl, hy⟩ := Option.bind_eq_some_iff.mp hx
    simpa using (hp y rfl).lt_base x (List.mem_of_getElem? hy)

/-- The positions of the neighbours at a level are below `BASE`, so that their difference is an
`int`. -/
theorem mem_levelRoom (hp : ∀ x ∈ p, Leid.InBase x) (hq : ∀ y ∈ q, Leid.InBase y) (k : ℕ) :
    rprefix q k - lprefix p k ∈ levelRoom p q k := by
  have h₁ := lprefix_nonneg (fun y hy => (hp y hy).toWf) k
  have h₂ := lprefix_lt_base hp k
  have h₃ := rprefix_nonneg hq k
  have h₄ := rprefix_le_base hq k
  unfold BASE at h₂ h₄
  exact if_pos (by omega)

/-- Where the search ends there is room. -/
theorem searchLoop_room {f i k : ℕ} (hp : ∀ x ∈ p, Leid.InBase x) (hq : ∀ y ∈ q, Leid.InBase y)
    (h : searchLoop p q f i = some k) : 2 ≤ rprefix q k - lprefix p k := by
  induction f generalizing i with
  | zero => cases h
  | succ f ih =>
    rw [searchLoop, Option.mem_def.mp (mem_levelRoom hp hq i), Option.bind_some] at h
    split at h
    · obtain ⟨_, -, h⟩ := Option.bind_eq_some_iff.mp h
      exact ih h
    · rename_i hroom
      cases h
      omega

/-- The search ends at the first level with room, if that is an `int`. -/
theorem searchLoop_first {f i k : ℕ} (hp : ∀ x ∈ p, Leid.InBase x) (hq : ∀ y ∈ q, Leid.InBase y)
    (hik : i ≤ k) (hf : k < i + f) (hk : k < 2 ^ 31)
    (hno : ∀ j, j < k → rprefix q j - lprefix p j < 2)
    (hroom : ¬ rprefix q k - lprefix p k < 2) : searchLoop p q f i = some k := by
  induction f generalizing i with
  | zero => omega
  | succ f ih =>
    rw [searchLoop, Option.mem_def.mp (mem_levelRoom hp hq i), Option.bind_some]
    rcases eq_or_lt_of_le hik with rfl | hlt
    · rw [if_neg hroom]
    · have hint : intAdd i 1 = some ((i : ℤ) + 1) := intAdd_eq_some.mpr ⟨by omega, rfl⟩
      rw [if_pos (hno i hlt), hint, Option.bind_some]
      exact ih hlt (by omega)

theorem PosStep.random_pos {left right : ℤ} (hl : 0 ≤ left) (hr : right ≤ BASE)
    (hroom : 2 ≤ right - left) (rand : ℕ) :
    (PosStep.random rand).pos left right = some (left + newStep (right - left - 2) rand + 1) := by
  have hge := newStep_nonneg (right - left - 2) rand
  have hle := newStep_le (show 0 ≤ right - left - 2 by omega) rand
  unfold BASE at hr
  have h₁ : intSub right left = some (right - left) := if_pos (by omega)
  have h₂ : intSub (right - left) 2 = some (right - left - 2) := if_pos (by omega)
  have h₃ : intAdd left (newStep (right - left - 2) rand) =
      some (left + newStep (right - left - 2) rand) := if_pos (by omega)
  simp only [PosStep.pos, h₁, h₂, h₃, Option.bind_some, intAdd_eq_some, and_true]
  omega

/-- The new position lies between those of the neighbours. -/
theorem PosStep.pos_between {left right : ℤ} (hl : 0 ≤ left) (hr : right ≤ BASE)
    (hroom : 2 ≤ right - left) (step : PosStep) :
    ∃ x, step.pos left right = some x ∧ left < x ∧ x < right := by
  cases step with
  | random rand =>
    have hge := newStep_nonneg (right - left - 2) rand
    have hle := newStep_le (show 0 ≤ right - left - 2 by omega) rand
    exact ⟨_, random_pos hl hr hroom rand, by omega, by omega⟩
  | fixed =>
    unfold BASE at hr
    exact ⟨left + 1, intAdd_eq_some.mpr ⟨by omega, rfl⟩, by omega, by omega⟩

/-- The level with room at which the search ends, and the identifier that is made there. -/
theorem constructLeidInt_eq_some {f : ℕ} {t : RawVc} {step : PosStep} {r : Leid}
    (h : constructLeidInt f p q t step = some r) :
    ∃ count index, sumLoop 0 t.vector = some count ∧ searchLoop p q f 0 = some index ∧
      IsInt ((index : ℤ) + 1) := by
  obtain ⟨count, hsum, h⟩ := Option.bind_eq_some_iff.mp h
  obtain ⟨index, hsearch, h⟩ := Option.bind_eq_some_iff.mp h
  obtain ⟨num, hnum, -⟩ := Option.bind_eq_some_iff.mp h
  exact ⟨count, index, hsum, hsearch, (intAdd_eq_some.mp hnum).1⟩

/-- With a sum and a level that are `int`s, `constructLeid` ends after the longer neighbour at the
latest. -/
theorem constructLeidInt_ends {t : RawVc} {step : PosStep} {left right x : ℤ} {f : ℕ}
    (hp : ∀ x ∈ p, Leid.InBase x) (hq : ∀ y ∈ q, Leid.InBase y) (ht : ∀ x ∈ t.vector, 0 ≤ x)
    (hsum : t.vector.sum < 2 ^ 31) (hlevel : newLevel p q + 1 < 2 ^ 31)
    (hleft : left = lprefix p (newLevel p q)) (hright : right = rprefix q (newLevel p q))
    (hx : step.pos left right = some x) (hf : newLevel p q < f) :
    constructLeidInt f p q t step =
      some ((List.range (newLevel p q)).map (fun i => (p.bind (·[i]?)).getD ⟨0, 0, 0⟩) ++
        [⟨x, t.id, t.vector.sum⟩]) := by
  have hcount : sumLoop 0 t.vector = some t.vector.sum :=
    (sumLoop_eq_some ht isNonnegInt_zero).mpr ⟨by omega, (zero_add _).symm⟩
  have hsearch : searchLoop p q f 0 = some (newLevel p q) :=
    searchLoop_first hp hq (Nat.zero_le _) (by omega) (by omega)
      (fun j hj => lt_searchLevel (Nat.zero_le j) hj) (newLevel_spec p q)
  have hnum : intAdd (newLevel p q) 1 = some ((newLevel p q : ℤ) + 1) :=
    intAdd_eq_some.mpr ⟨by omega, rfl⟩
  subst hleft hright
  rw [constructLeidInt, hcount, Option.bind_some, hsearch, Option.bind_some, hnum,
    Option.bind_some]
  exact congrArg (Option.map _) hx

/-- Between two neighbours, either of which may be missing, `constructLeid` ends with a result that
lies strictly between them, keeps the bounds and carries the clock, if and only if the sum of the
clock is an `int` and there is room at a level whose successor, the number of positions, is one. -/
theorem constructLeidInt_between_iff (p q : Option Leid) (t : RawVc) (step : PosStep)
    (hp : ∀ x ∈ p, Leid.InBase x) (hq : ∀ y ∈ q, Leid.InBase y)
    (hpq : ∀ x ∈ p, ∀ y ∈ q, leidCmp x y < 0) (ht : ∀ x ∈ t.vector, 0 ≤ x) :
    (∃ f₀ r, (∀ f ≥ f₀, constructLeidInt f p q t step = some r) ∧
      (∀ x ∈ p, leidCmp x r < 0) ∧ (∀ y ∈ q, leidCmp r y < 0) ∧
      (∀ z ∈ r, 0 ≤ z.pos ∧ z.pos < BASE) ∧
      ∃ l z, r = l ++ [z] ∧ 1 ≤ z.pos ∧ z.pid = t.id ∧ z.count = t.vector.sum) ↔
    t.vector.sum < 2 ^ 31 ∧ ∃ i, i + 1 < 2 ^ 31 ∧ 2 ≤ rprefix q i - lprefix p i := by
  constructor
  · rintro ⟨f₀, r, hr, -⟩
    obtain ⟨count, index, hsum, hsearch, hint⟩ := constructLeidInt_eq_some (hr f₀ le_rfl)
    have hlt := ((sumLoop_eq_some ht isNonnegInt_zero).mp hsum).1
    exact ⟨by omega, index, by omega, searchLoop_room hp hq hsearch⟩
  · rintro ⟨hsum, i, hi, hroom⟩
    have hlevel : newLevel p q < i + 1 := newLevel_lt_iff.mpr ⟨i, Nat.lt_succ_self i, by omega⟩
    have hleft := lprefix_nonneg (fun y hy => (hp y hy).toWf) (newLevel p q)
    have hright := rprefix_le_base hq (newLevel p q)
    obtain ⟨x, hx, hlt, hgt⟩ :=
      step.pos_between hleft hright (not_lt.mp (newLevel_spec p q))
    refine ⟨newLevel p q + 1, _,
      fun f hf => constructLeidInt_ends hp hq ht hsum (by omega) rfl rfl hx hf, ?_, ?_,
      fun z hz => ?_, _, _, rfl, by simp only; omega, rfl, rfl⟩
    · rintro x hx
      obtain rfl : p = some x := hx
      exact leidCmp_lt_zero.mpr (lt_copy_append x _ hlt)
    · rintro y hy
      obtain rfl : q = some y := hy
      exact leidCmp_lt_zero.mpr (copy_lt (fun x hx => leidCmp_lt_zero.mp (hpq x hx y rfl))
        (hq y rfl).toWf hgt)
    · rcases List.mem_append.mp hz with hz | hz
      · rcases mem_copy hz with rfl | ⟨y, hy, hzy⟩
        · exact ⟨le_rfl, by decide⟩
        · exact ⟨((hp y hy).nonneg z hzy).1, (hp y hy).lt_base z hzy⟩
      · rw [List.mem_singleton.mp hz]
        simp only
        omega

end

/-- Neighbours that differ in the id of their first position only: the new identifier goes one
level down. -/
theorem constructLeidInt_between_siblings :
    leidCmp [⟨7, 0, 3⟩] [⟨7, 1, 2⟩] < 0 ∧
      ∃ f₀ r, ∀ f ≥ f₀, constructLeidInt f (some [⟨7, 0, 3⟩]) (some [⟨7, 1, 2⟩]) ⟨[2, 5], 1⟩
        (.random 12345) = some r ∧ leidCmp [⟨7, 0, 3⟩] r < 0 ∧ leidCmp r [⟨7, 1, 2⟩] < 0 := by
  have hx : Leid.InBase [⟨7, 0, 3⟩] := ⟨⟨by simp, [], _, rfl, by decide⟩, by simp [BASE]⟩
  have hy : Leid.InBase [⟨7, 1, 2⟩] := ⟨⟨by simp, [], _, rfl, by decide⟩, by simp [BASE]⟩
  obtain ⟨f₀, r, hr, hl, hu, -⟩ := (constructLeidInt_between_iff (some [⟨7, 0, 3⟩])
    (some [⟨7, 1, 2⟩]) ⟨[2, 5], 1⟩ (.random 12345) (by simpa using hx)
    (by simpa using hy) (by simp [leidCmp, posCmp]) (by simp)).mpr
    ⟨by decide, 1, by decide, by decide⟩
  exact ⟨by decide, f₀, r, fun f hf => ⟨hr f hf, hl _ rfl, hu _ rfl⟩⟩

/-- The entries of the clock are `int`s and their sum is not: `count` overflows, however many tests
the search is given. -/
theorem constructLeidInt_overflows :
    IsInt 2147483647 ∧ ∀ f, constructLeidInt f none none ⟨[2147483647, 1], 0⟩ (.random 0) = none :=
  ⟨by decide, fun _ => rfl⟩

/-- The `constructLeid` of the lists, whose integers are exact. -/
theorem constructLeidInt_clock {n : ℕ} {p q : Option Leid} (t : Clock n) (rand : ℕ) {f : ℕ}
    (hp : ∀ x ∈ p, Leid.InBase x) (hq : ∀ y ∈ q, Leid.InBase y) (hsum : ∑ i, t.vector i < 2 ^ 31)
    (hlevel : newLevel p q + 1 < 2 ^ 31) (hf : newLevel p q < f) :
    constructLeidInt f p q ⟨List.ofFn fun i => (t.vector i : ℤ), (t.id : ℕ)⟩ (.random rand) =
      some (constructLeid p q t rand) := by
  have hcast : (List.ofFn fun i => (t.vector i : ℤ)).sum = ((∑ i, t.vector i : ℕ) : ℤ) := by
    rw [List.sum_ofFn, Nat.cast_sum]
  have hpos := PosStep.random_pos (lprefix_nonneg (fun y hy => (hp y hy).toWf) (newLevel p q))
    (rprefix_le_base hq _) (not_lt.mp (newLevel_spec p q)) rand
  rw [constructLeidInt_ends hp hq (by simp) (by rw [hcast]; omega) hlevel rfl rfl hpos hf,
    hcast]
  rfl

end CrdtRedis
