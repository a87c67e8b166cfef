import CrdtRedis.ListFrame

/-!
# What a list's table does not know

Whatever names the commands use, also those of the list's own entries: an element that the table
has no entry for is not in the list and has no place (`Grounded.blank`). For this, the pointers of
the table and the links lead only to elements that were created under a name, and no entry of the
table is ever removed.

* `rwfl_grounded`, `rl_grounded`: this holds of every list in every run.
* `rwflPrepare_error`, `rlPrepare_error`: so a prepare phase that replies with an error leaves the
  list as it was, unless the command adds again (`readd`) an element that the table does not know.
* `rwflPrepare_readd`, `rlPrepare_readd`: such a command makes an element and then fails.
-/

namespace CrdtRedis

open Broadcast Linked

variable {n : ℕ} {X : Type}

namespace Ht

/-- The table has an entry for the name. -/
def Has (ht : Ht n X) (k : Sds) : Prop := ht.table k ≠ none

/-- Pointers lead to names that the table knows, and what it does not know is blank. -/
structure Grounded (present : X → Bool) (ht : Ht n X) : Prop where
  ele : ∀ k p, ht.table k = some (.ele p) → ht.Has p
  next : ∀ p q, (ht.node p).next = some q → ht.Has q
  blank : ∀ k, ht.table k = none → (ht.node k).oid = none ∧ present (ht.node k).body = false

/-- A step to a grounded list that forgets no name. -/
structure Grows (present : X → Bool) (ht ht' : Ht n X) : Prop where
  has : ∀ k, ht.Has k → ht'.Has k
  grounded : Grounded present ht'

variable {present : X → Bool} {ht ht₁ ht₂ ht' : Ht n X} {k p e id content prev : Sds} {pos x : Leid}

theorem Grounded.refl (h : Grounded present ht) : Grows present ht ht := ⟨fun _ hk => hk, h⟩

theorem Grows.trans (h₁ : Grows present ht ht₁) (h₂ : Grows present ht₁ ht₂) :
    Grows present ht ht₂ :=
  ⟨fun k hk => h₂.has k (h₁.has k hk), h₂.grounded⟩

theorem Grounded.new {r : Fin n} {f : Sds → X} (hf : ∀ k, present (f k) = false) :
    Grounded present (.new r f) :=
  ⟨fun _ _ h => by simp [Ht.new] at h, fun _ _ h => by simp [Ht.new, Node.new] at h,
    fun k _ => ⟨rfl, hf k⟩⟩

namespace Grounded

/-! ## The operations on the table -/

/-- A new or other value of one entry. -/
theorem entry {c : Cell} (h : Grounded present ht) (hn : ht'.node = ht.node)
    (htab : ht'.table = Function.update ht.table k (some c))
    (hc : ∀ p, c = .ele p → p = k ∨ ht.Has p) : Grows present ht ht' := by
  have hhas : ∀ q, q = k ∨ ht.Has q → ht'.Has q := by
    intro q hq
    unfold Has at hq ⊢
    rw [htab]
    by_cases hqk : q = k
    · simp [hqk]
    · rw [Function.update_of_ne hqk]
      exact hq.resolve_left hqk
  refine ⟨fun q hq => hhas q (.inr hq), fun q p hq => ?_, fun p q hq => ?_, fun q hq => ?_⟩
  · rw [htab] at hq
    by_cases hqk : q = k
    · subst hqk
      rw [Function.update_self] at hq
      exact hhas p (hc p (Option.some.inj hq))
    · rw [Function.update_of_ne hqk] at hq
      exact hhas p (.inr (h.ele q p hq))
  · rw [hn] at hq
    exact hhas q (.inr (h.next p q hq))
  · rw [hn]
    refine h.blank q ?_
    by_contra hne
    exact hhas q (.inr hne) hq

/-- A change of an element that the table knows. -/
theorem setNode {y : Node X} (h : Grounded present ht) (hp : ht.Has p)
    (hy : ∀ q, y.next = some q → ht.Has q) : Grows present ht (ht.setNode p y) := by
  refine ⟨fun _ hk => hk, h.ele, fun p' q hq => ?_, fun k hk => ?_⟩
  · by_cases hpp : p' = p
    · subst hpp
      exact hy q (by simpa using hq)
    · refine h.next p' q ?_
      simpa [hpp] using hq
  · have hkp : k ≠ p := fun heq => hp (heq ▸ hk)
    simpa [hkp] using h.blank k hk

theorem setBody (h : Grounded present ht) (hp : ht.Has p) (y : X) :
    Grows present ht (ht.setBody p y) :=
  h.setNode hp fun q hq => h.next p q hq

theorem setNext {o : Option Sds} (h : Grounded present ht) (hp : ht.Has p)
    (ho : ∀ q, o = some q → ht.Has q) : Grows present ht (ht.setNext p o) :=
  h.setNode hp ho

theorem setHead (h : Grounded present ht) (he : ht.Has e) : Grows present ht (ht.setHead e) :=
  h.entry rfl rfl fun p hp => .inr (by cases hp; exact he)

theorem setClock (h : Grounded present ht) (c : Clock n) : Grows present ht (ht.setClock c) :=
  ⟨fun _ hk => hk, h.ele, h.next, h.blank⟩

theorem getCurrent (h : Grounded present ht) (hc : ht.getCurrent = some ht') :
    Grows present ht ht' := by
  unfold Ht.getCurrent at hc
  split at hc
  · cases hc; exact h.entry rfl rfl (by simp)
  · cases hc; exact h.refl
  · cases hc

theorem getOps (h : Grounded present ht) (hc : ht.getOps = some ht') : Grows present ht ht' := by
  unfold Ht.getOps at hc
  split at hc
  · cases hc; exact h.entry rfl rfl (by simp)
  · cases hc; exact h.refl
  · cases hc

theorem incrLen {v : ℤ} (h : Grounded present ht) (hl : ht.incrLen v = some ht') :
    Grows present ht ht' := by
  obtain ⟨len, -, rfl⟩ := Option.map_eq_some_iff.mp hl
  exact h.entry rfl rfl (by simp)

/-- The end of many functions: an element changes, and with it perhaps the length. -/
theorem setBody_incrLen {y : X} {b : Bool} {d : ℤ} (h : Grounded present ht) (he : ht.Has e)
    (hl : (if b then (ht.setBody e y).incrLen d else some (ht.setBody e y)) = some ht') :
    Grows present ht ht' := by
  have h₁ := h.setBody he y
  split at hl
  · exact h₁.trans (h₁.grounded.incrLen hl)
  · obtain rfl := Option.some.inj hl
    exact h₁

theorem find (h : Grounded present ht) (hf : ht.find k = some (some p)) : ht.Has p := by
  unfold Ht.find at hf
  split at hf
  · cases hf
  · rename_i hk
    cases hf
    exact h.ele k p hk
  · cases hf

theorem create (h : Grounded present ht) (hc : ht.create k = some (ht', e)) :
    Grows present ht ht' ∧ ht'.Has e := by
  unfold Ht.create at hc
  split at hc
  · cases hc
    exact ⟨h.entry rfl rfl fun p hp => .inl (by cases hp; rfl), by simp [Has]⟩
  · rename_i hk
    cases hc
    exact ⟨h.refl, h.ele k e hk⟩
  · cases hc

/-! ## The place of a new element -/

theorem has_startAt {pre : Option Sds} {h₀ : Sds}
    (hpre : ∀ p ∈ pre, ht.Has p) (hh : ht.Has h₀) : ht.Has (ht.startAt pre h₀) := by
  unfold Ht.startAt
  split
  · rename_i p
    split
    · exact hpre p rfl
    · exact hh
  · exact hh

theorem link (h : Grounded present ht) (he : ht.Has e) (hl : ht.link e x prev = some ht') :
    Grows present ht ht' := by
  obtain ⟨o, ho, hl⟩ := Option.bind_eq_some_iff.mp hl
  cases o with
  | none =>
    obtain rfl := Option.some.inj hl
    exact h.setHead he
  | some h₀ =>
    have hh : ht.Has h₀ := h.find (k := headKey) ho
    obtain ⟨y, -, hl⟩ := Option.bind_eq_some_iff.mp hl
    split at hl
    · obtain rfl := Option.some.inj hl
      have h₁ := h.setHead he
      refine h₁.trans (h₁.grounded.setNext (h₁.has e he) fun q hq => ?_)
      cases hq
      exact h₁.has h₀ hh
    · obtain ⟨pre, hpre, hl⟩ := Option.bind_eq_some_iff.mp hl
      obtain ⟨⟨p, q⟩, hw, rfl⟩ := Option.map_eq_some_iff.mp hl
      have hstart := has_startAt (fun p hp => h.find (hpre.trans (congrArg some hp))) hh
      obtain ⟨hp, hq⟩ := walk_mem (A := ht.Has) h.next hstart hw
      have h₁ := h.setNext (o := some e) hp fun q hq => by cases hq; exact he
      exact h₁.trans (h₁.grounded.setNext (h₁.has e he) fun r hr => h₁.has r (hq r hr))

theorem insertNew (h : Grounded present ht) (he : ht.Has e)
    (hi : ht.insertNew e id content prev pos = some ht') : Grows present ht ht' := by
  obtain ⟨x, -, hl⟩ := Option.bind_eq_some_iff.mp hi
  have h₁ := h.setNode (y := { ht.node e with
    oid := some id, content := some content, posId := some x }) he fun q hq => h.next e q hq
  exact h₁.trans (h₁.grounded.link (h₁.has e he) hl)

/-! ## The prepare phase of an insert -/

variable {tick : Clock n → Clock n} {rand : ℕ} {pre : Option Sds}
  {res : Except ReplyErr (Sds × Sds × Leid)} {err : ReplyErr}

theorem insertPos (h : Grounded present ht)
    (hp : ht.insertPos present tick pre prev id e rand = some (ht', res)) :
    Grows present ht ht' := by
  unfold Ht.insertPos at hp
  split at hp
  · cases hp; exact h.refl
  split at hp
  · split at hp
    · cases hp; exact h.refl
    · obtain ⟨q, -, hp⟩ := Option.bind_eq_some_iff.mp hp
      obtain ⟨ht₁, hc, hp⟩ := Option.map_eq_some_iff.mp hp
      cases hp
      have h₁ := h.getCurrent hc
      exact h₁.trans (h₁.grounded.setClock _)
  split at hp
  · cases hp; exact h.refl
  · obtain ⟨x, -, hp⟩ := Option.map_eq_some_iff.mp hp
    cases hp; exact h.refl

end Grounded

/-- The argument `prev` is accepted and asks to add an element again. -/
def readds (present : X → Bool) (ht : Ht n X) (prev : Sds) : Bool :=
  match ht.find prev with
  | none => false
  | some none => strEq (sdstolower prev) readdWord
  | some (some p) =>
    present (ht.node p).body && (ht.node p).posId.isSome && strEq prev readdWord

variable {tick : Clock n → Clock n} {rand : ℕ} {pre : Option Sds}
  {res : Except ReplyErr (Sds × Sds × Leid)} {err : ReplyErr}

/-- What the prepare phase of an insert does: an error about `prev`, or the element is got, and
then the identifier. -/
theorem prepareInsert_cases (h : ht.prepareInsert present tick prev id rand = some (ht', res)) :
    (ht' = ht ∧ ∃ err, res = .error err) ∨
    ∃ pre prev' ht₁ e, ht.find prev = some pre ∧ ht.create id = some (ht₁, e) ∧
      (strEq prev' readdWord = true → ht.readds present prev = true) ∧
      ht₁.insertPos present tick pre prev' id e rand = some (ht', res) := by
  obtain ⟨pre, hf, h⟩ := Option.bind_eq_some_iff.mp h
  set prev' := if pre.isNone then sdstolower prev else prev with hprev
  rw [ite_eq_iff, ite_eq_iff] at h
  rcases h with ⟨-, h⟩ | ⟨-, ⟨-, h⟩ | ⟨hpre, h⟩⟩
  · cases h; exact .inl ⟨rfl, _, rfl⟩
  · cases h; exact .inl ⟨rfl, _, rfl⟩
  · obtain ⟨⟨ht₁, e⟩, hc, h⟩ := Option.bind_eq_some_iff.mp h
    refine .inr ⟨pre, prev', ht₁, e, hf, hc, fun hr => ?_, h⟩
    unfold readds
    cases pre with
    | none => simpa [hf, hprev] using hr
    | some p =>
      simp only [hf]
      simp only [Option.any_some, Bool.or_eq_true, not_or, Bool.not_eq_true',
        Bool.not_eq_false, Option.isNone_iff_eq_none] at hpre
      have hp : (ht.node p).posId.isSome = true := Option.isSome_iff_ne_none.mpr hpre.2
      rw [hpre.1, hp]
      simpa [hprev] using hr

theorem Grounded.prepareInsert (h : Grounded present ht)
    (hp : ht.prepareInsert present tick prev id rand = some (ht', res)) :
    Grows present ht ht' := by
  rcases prepareInsert_cases hp with ⟨rfl, -⟩ | ⟨pre, prev', ht₁, e, -, hc, -, hi⟩
  · exact h.refl
  · have h₁ := (h.create hc).1
    exact h₁.trans (h₁.grounded.insertPos hi)

/-- An error after the element was got leaves the list as it then was; a new element only fails to
be added again. -/
theorem insertPos_error
    (h : ht.insertPos present tick pre prev id e rand = some (ht', .error err)) :
    ht' = ht ∧ ((ht.node e).oid = none → present (ht.node e).body = false →
      strEq prev readdWord = true) := by
  unfold insertPos at h
  split at h
  · rename_i hb
    cases h
    exact ⟨rfl, fun _ hb' => by simp [hb] at hb'⟩
  split at h
  · split at h
    · rename_i hr
      cases h
      exact ⟨rfl, fun _ _ => hr⟩
    · obtain ⟨q, -, h⟩ := Option.bind_eq_some_iff.mp h
      obtain ⟨ht₁, -, h⟩ := Option.map_eq_some_iff.mp h
      cases h
  split at h
  · rename_i ho _
    cases h
    exact ⟨rfl, fun ho' => by simp [ho'] at ho⟩
  · obtain ⟨x, -, h⟩ := Option.map_eq_some_iff.mp h
    cases h

/-- **An insert that is refused**: nothing changes, or the insert adds again an unknown element. -/
theorem Grounded.prepareInsert_error (h : Grounded present ht)
    (hp : ht.prepareInsert present tick prev id rand = some (ht', .error err)) :
    ht' = ht ∨ (ht.readds present prev = true ∧ ht.table id = none) := by
  rcases prepareInsert_cases hp with ⟨rfl, -⟩ | ⟨pre, prev', ht₁, e, -, hc, hr, hi⟩
  · exact .inl rfl
  · obtain ⟨rfl, hnew⟩ := insertPos_error hi
    cases hid : ht.table id with
    | some c =>
      -- The element was there.
      unfold Ht.create at hc
      rw [hid] at hc
      cases c with
      | ele p => cases hc; exact .inl rfl
      | clock => cases hc
      | len v => cases hc
      | ops => cases hc
    | none =>
      obtain ⟨ho, hb⟩ := h.blank id hid
      unfold Ht.create at hc
      rw [hid] at hc
      cases hc
      exact .inr ⟨hr (hnew ho hb), rfl⟩

/-- An insert that adds again an unknown element makes the element and fails. -/
theorem Grounded.prepareInsert_readd (tick : Clock n → Clock n) (rand : ℕ)
    (h : Grounded present ht) (hr : ht.readds present prev = true)
    (hid : ht.table id = none) :
    ht.prepareInsert present tick prev id rand = some (ht.withEle id, .error (.notAdded id)) := by
  obtain ⟨ho, hb⟩ := h.blank id hid
  have hpos : ∀ pre prev', strEq prev' readdWord = true →
      (ht.create id).bind (fun p => p.1.insertPos present tick pre prev' id p.2 rand) =
        some (ht.withEle id, .error (.notAdded id)) := by
    intro pre prev' hprev
    simp [Ht.create, hid, Ht.insertPos, hb, ho, hprev, withEle]
  unfold readds at hr
  unfold Ht.prepareInsert
  split at hr
  · cases hr
  · rename_i hf
    simp only [hf, Option.bind_some, Option.isNone_none, if_true, hr, Bool.not_true, Bool.and_false,
      Bool.false_eq_true, if_false, Option.any_none]
    exact hpos none _ hr
  · rename_i p hf
    simp only [Bool.and_eq_true] at hr
    obtain ⟨⟨hbody, hplace⟩, hprev⟩ := hr
    have hany : (!present (ht.node p).body || (ht.node p).posId.isNone) = false := by
      simpa [hbody, Option.isSome_iff_ne_none] using hplace
    simp only [hf, Option.bind_some, Option.isNone_some, Bool.false_and, Bool.false_eq_true,
      if_false, Option.any_some, hany]
    exact hpos (some p) prev hprev

end Ht

open Ht

/-- The number of arguments of a command and the most that its prepare phase takes. -/
def LCmd.argc : LCmd → ℕ
  | .insert argc .. | .update argc .. | .rem argc _ => argc

def LCmd.maxArgc : LCmd → ℕ
  | .insert .. => 9
  | .update .. => 5
  | .rem .. => 3

/-- The checks of the number arguments. -/
def LCmd.checkArgs : LCmd → Except ReplyErr Unit
  | .insert _ _ _ _ font size color property _ =>
    (insertArgs font size color property).map fun _ => ()
  | .update _ _ _ value => (checkArg .notInteger value).map fun _ => ()
  | .rem .. => .ok ()

/-- The command passes the checks of its arguments, and is an insert that adds again an element
that the table does not know. -/
def LCmd.ReaddsUnknown (present : X → Bool) (ht : Ht n X) (o : LCmd) : Prop :=
  checkArgc o.maxArgc o.argc = .ok () ∧ o.checkArgs = .ok () ∧
    match o with
    | .insert _ prev id .. => ht.readds present prev = true ∧ ht.table id = none
    | .update .. | .rem .. => False

/-- The command is an insert of `id` whose arguments pass the checks. -/
inductive LCmd.Inserts (prev id : Sds) (rand : ℕ) : LCmd → Prop
  | mk {argc : ℕ} {content : Sds} {font size color property : Option (BitVec 64)}
    {args : InsertArgs} (hargc : checkArgc 9 argc = .ok ())
    (hargs : insertArgs font size color property = .ok args) :
    Inserts prev id rand (.insert argc prev id content font size color property rand)

theorem LCmd.Inserts.readdsUnknown {present : X → Bool} {ht : Ht n X} {o : LCmd} {prev id : Sds}
    {rand : ℕ} (h : o.Inserts prev id rand)
    (hu : ht.readds present prev = true ∧ ht.table id = none) : o.ReaddsUnknown present ht := by
  cases h with
  | mk hargc hargs => exact ⟨hargc, by simp [LCmd.checkArgs, hargs, Except.map], hu⟩

theorem LCmd.ReaddsUnknown.table_id {present : X → Bool} {ht : Ht n X} {o : LCmd}
    (h : o.ReaddsUnknown present ht) : ht.table o.id = none := by
  cases o with
  | insert argc prev id content font size color property rand => exact h.2.2.2
  | update argc id type value => exact h.2.2.elim
  | rem argc id => exact h.2.2.elim

/-! ## The RWF list -/

section Rwfl

variable {r : Fin n} {ht ht' : RwfHt n} {e : Sds} {t : Clock n} {o : LCmd} {err : ReplyErr}

/-- `EXISTS`. -/
abbrev Rwfle.present (x : Rwfle n) : Bool := x.header.exists

theorem rwflRemoveFunc_grows (h : Grounded Rwfle.present ht) (he : ht.Has e)
    (hr : rwflRemoveFunc ht e t = some ht') : Grows Rwfle.present ht ht' := by
  simp only [rwflRemoveFunc] at hr
  split at hr
  · exact h.setBody_incrLen he hr
  · obtain rfl := Option.some.inj hr
    exact h.refl

theorem rwflAddFunc_grows {args : InsertArgs} (h : Grounded Rwfle.present ht) (he : ht.Has e)
    (hr : rwflAddFunc ht e args t = some ht') : Grows Rwfle.present ht ht' := by
  simp only [rwflAddFunc] at hr
  split at hr
  · exact h.setBody_incrLen he hr
  · obtain rfl := Option.some.inj hr
    exact h.refl

theorem rwflEffect_grows {m : RwflMsg n} (h : Grounded Rwfle.present ht)
    (he : rwflEffect ht m = some ht') : Grows Rwfle.present ht ht' := by
  cases m with
  | insert prev id content args pos t =>
    obtain ⟨⟨ht₁, e⟩, hc, he⟩ := Option.bind_eq_some_iff.mp he
    obtain ⟨ht₂, hr, he⟩ := Option.bind_eq_some_iff.mp he
    obtain ⟨ht₃, hi, ha⟩ := Option.bind_eq_some_iff.mp he
    obtain ⟨h₁, hhas⟩ := h.create hc
    have h₂ := rwflRemoveFunc_grows h₁.grounded hhas hr
    have h₃ : Grows Rwfle.present ht₂ ht₃ := by
      split at hi
      · exact h₂.grounded.insertNew (h₂.has e hhas) hi
      · obtain rfl := Option.some.inj hi
        exact h₂.grounded.refl
    have h₄ := rwflAddFunc_grows h₃.grounded (h₃.has e (h₂.has e hhas)) ha
    exact ((h₁.trans h₂).trans h₃).trans h₄
  | update id type value lt t =>
    obtain ⟨⟨ht₁, e⟩, hc, he⟩ := Option.bind_eq_some_iff.mp he
    obtain ⟨ht₂, hr, rfl⟩ := Option.map_eq_some_iff.mp he
    obtain ⟨h₁, hhas⟩ := h.create hc
    have h₂ := rwflRemoveFunc_grows h₁.grounded hhas hr
    refine (h₁.trans h₂).trans ?_
    dsimp only
    split
    · exact h₂.grounded.setBody (h₂.has e hhas) _
    · exact h₂.grounded.refl
  | rem id t =>
    obtain ⟨⟨ht₁, e⟩, hc, hr⟩ := Option.bind_eq_some_iff.mp he
    obtain ⟨h₁, hhas⟩ := h.create hc
    exact h₁.trans (rwflRemoveFunc_grows h₁.grounded hhas hr)

/-- What a prepare phase does: it leaves the list as it was, or it is that of an insert whose
arguments are right. -/
theorem rwflPrepare_cases {res : Except ReplyErr (RwflMsg n)}
    (hp : rwflPrepare r ht o = some (ht', res)) :
    (ht' = ht ∧ ∀ m, res = .ok m → m.posId = none) ∨ ∃ prev id rand res', o.Inserts prev id rand ∧
      ht.prepareInsert Rwfle.present (vcInc · r) prev id rand = some (ht', res') ∧
      (∀ err, res = .error err → res' = .error err) ∧
      ∀ m, res = .ok m → ∃ prev' e pos, res' = .ok (prev', e, pos) ∧ m.posId = some pos := by
  have hrefused : ∀ {err}, some (ht, (.error err : Except ReplyErr (RwflMsg n))) = some (ht', res) →
      ht' = ht ∧ ∀ m, res = .ok m → m.posId = none := by
    intro err heq
    cases heq
    exact ⟨rfl, fun m hm => by cases hm⟩
  -- An update or a remove that is accepted.
  have hsent : ∀ {b : Bool} {m err}, m.posId = none →
      (ht, if b then (.ok m : Except ReplyErr (RwflMsg n)) else .error err) = (ht', res) →
      ht' = ht ∧ ∀ m, res = .ok m → m.posId = none := by
    intro b m err hm heq
    cases heq
    refine ⟨rfl, fun m' hm' => ?_⟩
    split at hm'
    · cases hm'
      exact hm
    · cases hm'
  cases o with
  | insert argc prev id content font size color property rand =>
    simp only [rwflPrepare] at hp
    split at hp
    · exact .inl (hrefused hp)
    · exact .inl (hrefused hp)
    · rename_i args hargs hne
      obtain ⟨⟨ht₁, res₁⟩, hi, heq⟩ := Option.map_eq_some_iff.mp hp
      cases heq
      refine .inr ⟨prev, id, rand, res₁, ⟨checkArgc_ok hne, hargs⟩, hi, fun err herr => ?_,
        fun m hm => ?_⟩
      · cases res₁ with
        | error err' => cases herr; rfl
        | ok q => cases herr
      · cases res₁ with
        | error err' => cases hm
        | ok q =>
          cases hm
          exact ⟨_, _, _, rfl, rfl⟩
  | update argc id type value =>
    simp only [rwflPrepare] at hp
    split at hp
    · exact .inl (hrefused hp)
    · exact .inl (hrefused hp)
    · obtain ⟨q, -, heq⟩ := Option.map_eq_some_iff.mp hp
      cases q with
      | none => exact .inl (hrefused (congrArg some heq))
      | some e => exact .inl (hsent rfl heq)
  | rem argc id =>
    simp only [rwflPrepare] at hp
    split at hp
    · exact .inl (hrefused hp)
    · obtain ⟨q, -, heq⟩ := Option.map_eq_some_iff.mp hp
      cases q with
      | none => exact .inl (hrefused (congrArg some heq))
      | some e => exact .inl (hsent rfl heq)

/-- The prepare phase of the object is that of the list. -/
theorem rwflObj_prepare {junk : Fin n → Sds → Normal → BitVec 32} {x x₁ : Option (RwfHt n)}
    {m : Option (RwflMsg n)} (hp : (rwflObj n junk).prepare r x o = (x₁, m)) :
    (x₁ = none ∧ m = none) ∨ ∃ ht ht' res, x = some ht ∧ x₁ = some ht' ∧ m = res.toOption ∧
      rwflPrepare r ht o = some (ht', res) := by
  cases hpx : x.bind fun ht => rwflPrepare r ht o with
  | none =>
    simp only [rwflObj, hpx] at hp
    cases hp
    exact .inl ⟨rfl, rfl⟩
  | some p =>
    simp only [rwflObj, hpx] at hp
    cases hp
    obtain ⟨ht, hx, hprep⟩ := Option.bind_eq_some_iff.mp hpx
    exact .inr ⟨ht, p.1, p.2, hx, rfl, rfl, hprep⟩

/-- What both phases keep holds of every list of every run. -/
theorem rwfl_list_rule {I : RwfHt n → Prop} {junk : Fin n → Sds → Normal → BitVec 32}
    {G : Sys (Fin n) (Option (RwfHt n)) (RwflMsg n) → Ev (Fin n) LCmd → Prop}
    {s : Sys (Fin n) (Option (RwfHt n)) (RwflMsg n)} (hs : (rwflObj n junk).Reach G s)
    (new : ∀ r, I (.new r fun k => rwfleNew r (junk r k)))
    (prepare : ∀ {r ht o ht' res}, I ht → rwflPrepare r ht o = some (ht', res) → I ht')
    (effect : ∀ {ht m ht'}, I ht → rwflEffect ht m = some ht' → I ht')
    (hst : s.st r = some ht) : I ht := by
  refine hs.st_rule (I := fun _ x => ∀ ht ∈ x, I ht) (fun r ht hht => ?_)
    (fun r x o x₁ m hx hp ht hht => ?_) (fun r x m hx ht hht => ?_) r ht hst
  · obtain rfl := Option.some.inj hht
    exact new r
  · rcases rwflObj_prepare hp with ⟨rfl, -⟩ | ⟨ht₀, ht₁, res, hx₀, rfl, -, hprep⟩
    · cases hht
    · obtain rfl := Option.some.inj hht
      exact prepare (hx ht₀ hx₀) hprep
  · obtain ⟨ht₀, hx₀, he⟩ := Option.bind_eq_some_iff.mp hht
    exact effect (hx ht₀ hx₀) he

/-- Every list of every run is grounded. -/
theorem rwfl_grounded {junk : Fin n → Sds → Normal → BitVec 32}
    {G : Sys (Fin n) (Option (RwfHt n)) (RwflMsg n) → Ev (Fin n) LCmd → Prop}
    {s : Sys (Fin n) (Option (RwfHt n)) (RwflMsg n)} (hs : (rwflObj n junk).Reach G s)
    (hst : s.st r = some ht) : Grounded Rwfle.present ht := by
  refine rwfl_list_rule hs (fun r => .new fun _ => rfl) (fun h hp => ?_)
    (fun h he => (rwflEffect_grows h he).grounded) hst
  rcases rwflPrepare_cases hp with ⟨rfl, -⟩ | ⟨_, _, _, _, -, hi, -⟩
  · exact h
  · exact (h.prepareInsert hi).grounded

/-- **A command that is refused** leaves the list as it was, or adds again an unknown element. -/
theorem rwflPrepare_error (h : Grounded Rwfle.present ht)
    (hp : rwflPrepare r ht o = some (ht', .error err)) :
    ht' = ht ∨ o.ReaddsUnknown Rwfle.present ht := by
  rcases rwflPrepare_cases hp with ⟨heq, -⟩ | ⟨prev, id, rand, res', ho, hi, hres, -⟩
  · exact .inl heq
  · obtain rfl := hres err rfl
    exact (h.prepareInsert_error hi).imp_right ho.readdsUnknown

/-- A command that adds again an unknown element makes the element and fails. -/
theorem rwflPrepare_readd (h : Grounded Rwfle.present ht) (ho : o.ReaddsUnknown Rwfle.present ht) :
    rwflPrepare r ht o = some (ht.withEle o.id, .error (.notAdded o.id)) := by
  obtain ⟨hargc, hargs, ho⟩ := ho
  cases o with
  | insert argc prev id content font size color property rand =>
    cases ha : insertArgs font size color property with
    | error err => simp [LCmd.checkArgs, ha, Except.map] at hargs
    | ok args =>
      have hi := h.prepareInsert_readd (vcInc · r) rand ho.1 ho.2
      simp only [LCmd.maxArgc, LCmd.argc] at hargc
      simp only [rwflPrepare, hargc, ha, hi, Option.map_some]
      rfl
  | update argc id type value => exact ho.elim
  | rem argc id => exact ho.elim

end Rwfl

/-! ## The Remove-Win list -/

section Rl

variable {r : Fin n} {ht ht' : RlHt n} {e id : Sds} {t : Clock n} {o : LCmd} {err : ReplyErr}

theorem rlBegin_grows (h : Grounded RwSets.lookup ht) (hb : rlBegin ht id t = some (ht', e)) :
    Grows RwSets.lookup ht ht' ∧ ht'.Has e := by
  obtain ⟨ht₁, hc, hb⟩ := Option.bind_eq_some_iff.mp hb
  have h₁ := h.getCurrent hc
  have h₂ := h₁.trans (h₁.grounded.setClock (vcUpdate ht₁.clock t))
  obtain ⟨h₃, hhas⟩ := h₂.grounded.create hb
  exact ⟨h₂.trans h₃, hhas⟩

theorem rlExec_grows {m : RlMsg n} (h : Grounded RwSets.lookup ht) (he : rlExec ht m = some ht') :
    Grows RwSets.lookup ht ht' := by
  cases m with
  | insert prev id content args pos t =>
    obtain ⟨⟨ht₁, e⟩, hb, he⟩ := Option.bind_eq_some_iff.mp he
    obtain ⟨ht₂, hi, ha⟩ := Option.bind_eq_some_iff.mp he
    obtain ⟨h₁, hhas⟩ := rlBegin_grows h hb
    have h₂ : Grows RwSets.lookup ht₁ ht₂ := by
      split at hi
      · exact h₁.grounded.insertNew hhas hi
      · obtain rfl := Option.some.inj hi
        exact h₁.grounded.refl
    exact (h₁.trans h₂).trans (h₂.grounded.setBody_incrLen (h₂.has e hhas) ha)
  | update id type value t =>
    obtain ⟨⟨ht₁, e⟩, hb, rfl⟩ := Option.map_eq_some_iff.mp he
    obtain ⟨h₁, hhas⟩ := rlBegin_grows h hb
    exact h₁.trans (h₁.grounded.setBody hhas _)
  | rem id t =>
    obtain ⟨⟨ht₁, e⟩, hb, he⟩ := Option.bind_eq_some_iff.mp he
    obtain ⟨h₁, hhas⟩ := rlBegin_grows h hb
    exact h₁.trans (h₁.grounded.setBody_incrLen hhas he)

section Rule

variable {I : RlHt n → Prop}

/-- What the calls for the clock and the buffer and every operation keep, `notifyLoop` keeps. -/
theorem rlNotify_rule (current : ∀ {ht ht'}, I ht → ht.getCurrent = some ht' → I ht')
    (ops : ∀ {ht ht'}, I ht → ht.getOps = some ht' → I ht')
    (exec : ∀ {ht m ht'}, I ht → rlExec ht m = some ht' → I ht') {k : ℕ} {x y : RlSt n}
    (h : I x.ht) (hn : rlNotify k x = some y) : I y.ht := by
  obtain ⟨ht₂, hg, hn⟩ := Option.bind_eq_some_iff.mp hn
  obtain ⟨ht₁, ho, hc⟩ := Option.bind_eq_some_iff.mp hg
  have h₂ := current (ops h ho) hc
  obtain ⟨z, hz, rfl⟩ := Option.map_eq_some_iff.mp hn
  -- Each round of the loop is one operation.
  have hround : ∀ (s : Option (RlSt n)) (ops : List (RlMsg n)) (m : RlMsg n),
      (∀ z ∈ s, I z.ht) → ops.find? (rlReady s) = some m →
      ∀ z ∈ s.bind (RlSt.exec · m), I z.ht := by
    intro s ops m hs _ z hz
    obtain ⟨x, hx, he⟩ := Option.bind_eq_some_iff.mp hz
    obtain ⟨ht, hm, rfl⟩ := Option.map_eq_some_iff.mp he
    exact exec (hs x hx) hm
  exact drain_rule (I := fun s _ => ∀ z ∈ s, I z.ht) hround k _ x.ops
    (fun z hz => by obtain rfl := Option.some.inj hz; exact h₂) z hz

theorem rlEffect_rule (current : ∀ {ht ht'}, I ht → ht.getCurrent = some ht' → I ht')
    (ops : ∀ {ht ht'}, I ht → ht.getOps = some ht' → I ht')
    (exec : ∀ {ht m ht'}, I ht → rlExec ht m = some ht' → I ht') {x y : RlSt n} {m : RlMsg n}
    (h : I x.ht) (he : rlEffect x m = some y) : I y.ht := by
  obtain ⟨ht₁, hc, he⟩ := Option.bind_eq_some_iff.mp he
  have h₁ := current h hc
  split at he
  · obtain ⟨z, hz, hn⟩ := Option.bind_eq_some_iff.mp he
    obtain ⟨ht₂, hm, rfl⟩ := Option.map_eq_some_iff.mp hz
    have h₂ : I ht₂ := exec h₁ hm
    exact rlNotify_rule current ops exec h₂ hn
  · obtain ⟨ht₂, ho, rfl⟩ := Option.map_eq_some_iff.mp he
    exact ops h₁ ho

end Rule

theorem rlStamped_cases {f : Clock n → RlMsg n} {res : Except ReplyErr (RlMsg n)}
    (hp : rlStamped ht f = some (ht', res)) :
    (∃ t, res = .ok (f t)) ∧ ht.getCurrent = some ht' := by
  obtain ⟨ht₁, hc, heq⟩ := Option.map_eq_some_iff.mp hp
  cases heq
  exact ⟨⟨_, rfl⟩, hc⟩

/-- What a prepare phase does: it refuses and leaves the list as it was; or it accepts and gets the
clock; or it is that of an insert whose arguments are right. -/
theorem rlPrepare_cases {res : Except ReplyErr (RlMsg n)}
    (hp : rlPrepare ht o = some (ht', res)) :
    (ht' = ht ∧ ∃ err, res = .error err) ∨
    ((∃ m, res = .ok m ∧ m.posId = none) ∧ ht.getCurrent = some ht') ∨
    ∃ prev id rand ht₁ res', o.Inserts prev id rand ∧
      ht.prepareInsert RwSets.lookup (fun c => c) prev id rand = some (ht₁, res') ∧
      ((∃ err, res = .error err ∧ res' = .error err ∧ ht' = ht₁) ∨
        ((∃ m prev' e pos, res = .ok m ∧ res' = .ok (prev', e, pos) ∧ m.posId = some pos) ∧
          ht₁.getCurrent = some ht')) := by
  have hwith : ∀ {id f}, (∀ t, (f t).posId = none) → rlWithEle ht id f = some (ht', res) →
      (ht' = ht ∧ ∃ err, res = .error err) ∨
        ((∃ m, res = .ok m ∧ m.posId = none) ∧ ht.getCurrent = some ht') := by
    intro id f hf hp
    obtain ⟨q, -, hp⟩ := Option.bind_eq_some_iff.mp hp
    cases q with
    | none => cases hp; exact .inl ⟨rfl, _, rfl⟩
    | some e =>
      dsimp only at hp
      split at hp
      · obtain ⟨⟨t, ht⟩, hc⟩ := rlStamped_cases hp
        exact .inr ⟨⟨f t, ht, hf t⟩, hc⟩
      · cases hp; exact .inl ⟨rfl, _, rfl⟩
  cases o with
  | insert argc prev id content font size color property rand =>
    simp only [rlPrepare] at hp
    split at hp
    · cases hp; exact .inl ⟨rfl, _, rfl⟩
    · cases hp; exact .inl ⟨rfl, _, rfl⟩
    · rename_i args hargs hne
      obtain ⟨⟨ht₁, res₁⟩, hi, hp⟩ := Option.bind_eq_some_iff.mp hp
      refine .inr (.inr ⟨prev, id, rand, ht₁, res₁, ⟨checkArgc_ok hne, hargs⟩, hi, ?_⟩)
      cases res₁ with
      | error err => cases hp; exact .inl ⟨err, rfl, rfl, rfl⟩
      | ok q =>
        obtain ⟨⟨t, ht⟩, hc⟩ := rlStamped_cases hp
        exact .inr ⟨⟨_, _, _, _, ht, rfl, rfl⟩, hc⟩
  | update argc id type value =>
    simp only [rlPrepare] at hp
    split at hp
    · cases hp; exact .inl ⟨rfl, _, rfl⟩
    · cases hp; exact .inl ⟨rfl, _, rfl⟩
    · exact (hwith (fun _ => rfl) hp).imp_right .inl
  | rem argc id =>
    simp only [rlPrepare] at hp
    split at hp
    · cases hp; exact .inl ⟨rfl, _, rfl⟩
    · exact (hwith (fun _ => rfl) hp).imp_right .inl

/-- The prepare phase of the object is that of the list. -/
theorem rlObj_prepare {x x₁ : Option (RlSt n)} {m : Option (RlMsg n)}
    (hp : (rlObj n).prepare r x o = (x₁, m)) :
    (x₁ = none ∧ m = none) ∨ ∃ y ht' res, x = some y ∧ x₁ = some { y with ht := ht' } ∧
      m = res.toOption ∧ rlPrepare y.ht o = some (ht', res) := by
  cases hpx : x.bind fun x => (rlPrepare x.ht o).map fun p => ({ x with ht := p.1 }, p.2) with
  | none =>
    simp only [rlObj, hpx] at hp
    cases hp
    exact .inl ⟨rfl, rfl⟩
  | some p =>
    simp only [rlObj, hpx] at hp
    cases hp
    obtain ⟨y, hx, hprep⟩ := Option.bind_eq_some_iff.mp hpx
    obtain ⟨⟨ht₁, res⟩, hrl, rfl⟩ := Option.map_eq_some_iff.mp hprep
    exact .inr ⟨y, ht₁, res, hx, rfl, rfl, hrl⟩

/-- What both phases keep holds of every list of every run. -/
theorem rl_list_rule {I : RlHt n → Prop}
    {G : Sys (Fin n) (Option (RlSt n)) (RlMsg n) → Ev (Fin n) LCmd → Prop}
    {s : Sys (Fin n) (Option (RlSt n)) (RlMsg n)} {x : RlSt n} (hs : (rlObj n).Reach G s)
    (new : ∀ r, I (.new r fun _ => .new))
    (prepare : ∀ {ht o ht' res}, I ht → rlPrepare ht o = some (ht', res) → I ht')
    (effect : ∀ {x m y}, I x.ht → rlEffect x m = some y → I y.ht)
    (hst : s.st r = some x) : I x.ht := by
  refine hs.st_rule (I := fun _ y => ∀ x ∈ y, I x.ht) (fun r x hx => ?_)
    (fun r y o y₁ m hy hp x hx => ?_) (fun r y m hy x hx => ?_) r x hst
  · obtain rfl := Option.some.inj hx
    exact new r
  · rcases rlObj_prepare hp with ⟨rfl, -⟩ | ⟨x₀, ht₁, res, hx₀, rfl, -, hprep⟩
    · cases hx
    · obtain rfl := Option.some.inj hx
      exact prepare (hy x₀ hx₀) hprep
  · obtain ⟨x₀, hx₀, he⟩ := Option.bind_eq_some_iff.mp hx
    exact effect (hy x₀ hx₀) he

/-- Every list of every run is grounded. -/
theorem rl_grounded {G : Sys (Fin n) (Option (RlSt n)) (RlMsg n) → Ev (Fin n) LCmd → Prop}
    {s : Sys (Fin n) (Option (RlSt n)) (RlMsg n)} {x : RlSt n} (hs : (rlObj n).Reach G s)
    (hst : s.st r = some x) : Grounded RwSets.lookup x.ht := by
  refine rl_list_rule hs (fun r => .new fun _ => rfl) (fun h hp => ?_)
    (rlEffect_rule (fun h hc => (h.getCurrent hc).grounded) (fun h ho => (h.getOps ho).grounded)
      fun h he => (rlExec_grows h he).grounded) hst
  rcases rlPrepare_cases hp with ⟨rfl, -⟩ | ⟨-, hc⟩ | ⟨_, _, _, ht₁, _, -, hi, hr⟩
  · exact h
  · exact (h.getCurrent hc).grounded
  · have h₁ := (h.prepareInsert hi).grounded
    rcases hr with ⟨_, -, -, rfl⟩ | ⟨-, hc⟩
    · exact h₁
    · exact (h₁.getCurrent hc).grounded

/-- **A command that is refused** leaves the list as it was, or adds again an unknown element. -/
theorem rlPrepare_error (h : Grounded RwSets.lookup ht)
    (hp : rlPrepare ht o = some (ht', .error err)) :
    ht' = ht ∨ o.ReaddsUnknown RwSets.lookup ht := by
  rcases rlPrepare_cases hp with ⟨heq, -⟩ | ⟨⟨m, hm, -⟩, -⟩ |
    ⟨prev, id, rand, ht₁, res', ho, hi, hr⟩
  · exact .inl heq
  · cases hm
  · rcases hr with ⟨err', herr, rfl, rfl⟩ | ⟨⟨m, _, _, _, hm, -⟩, -⟩
    · exact (h.prepareInsert_error hi).imp_right ho.readdsUnknown
    · cases hm

/-- A command that adds again an unknown element makes the element and fails. -/
theorem rlPrepare_readd (h : Grounded RwSets.lookup ht) (ho : o.ReaddsUnknown RwSets.lookup ht) :
    rlPrepare ht o = some (ht.withEle o.id, .error (.notAdded o.id)) := by
  obtain ⟨hargc, hargs, ho⟩ := ho
  cases o with
  | insert argc prev id content font size color property rand =>
    cases ha : insertArgs font size color property with
    | error err => simp [LCmd.checkArgs, ha, Except.map] at hargs
    | ok args =>
      have hi := h.prepareInsert_readd (fun c => c) rand ho.1 ho.2
      simp only [LCmd.maxArgc, LCmd.argc] at hargc
      simp only [rlPrepare, hargc, ha, hi, Option.bind_some]
      rfl
  | update argc id type value => exact ho.elim
  | rem argc id => exact ho.elim

end Rl

end CrdtRedis
